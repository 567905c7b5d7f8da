import LearnFramework.Eth.Grammar

/-!
# The denotation of a datum

Each form of a token is read in full and nothing of what follows gets into its
bytes: the `0x` branch reads up to two characters on, which are a space and at
most one more digit, and an unpaired last digit is dropped. So a turn of the
outer loop takes exactly one entry off the text, and what is in the target and
the queue together grows by the bytes of the entry.
-/

namespace LearnFramework.Eth

open Bytes

/-! ## Tokens -/

/-- The next space is where the rest begins. -/
theorem find_space {s rest : List UInt8} (hs : 32 ∉ s) (hb : Boundary rest) :
    find (s ++ rest) 32 0 = some s.length ∨ find (s ++ rest) 32 0 = none ∧ rest = [] := by
  rw [find_append hs]
  cases rest with
  | nil => exact Or.inr ⟨by simp [find], rfl⟩
  | cons c rest =>
    have hc : c = 32 := hb c (by simp)
    subst hc
    exact Or.inl (by simp)

/-- The text from the next space on. -/
theorem substr_rest {s rest : List UInt8} (hs : 32 ∉ s) (hb : Boundary rest) :
    substr (s ++ rest) ((find (s ++ rest) 32 0).elim (s ++ rest).length
      (min · (s ++ rest).length)) none = .ok rest := by
  rcases find_space hs hb with hn | ⟨hn, rfl⟩
  · rw [hn]
    simp [substr]
  · rw [hn]
    simp [substr]

/-- The characters that the `0x` branch reads too many hold at most one digit. -/
theorem decode_two_more {digits rest : List UInt8} (hhex : ∀ c ∈ digits, Hex.isDigit c = true)
    (heven : digits.length % 2 = 0) (hb : Boundary rest) :
    Hex.decode (digits ++ rest.take 2) = Hex.decode digits := by
  rw [Hex.decode_append (by rw [Hex.length_filterMap_digit hhex]; exact heven)]
  have hnil : Hex.decode (rest.take 2) = [] := by
    cases rest with
    | nil => rfl
    | cons c rest =>
      have hc : c = 32 := hb c (by simp)
      subst hc
      cases rest with
      | nil => rfl
      | cons d rest =>
        change Hex.pack ([32, d].filterMap Hex.digit) = []
        cases hd : Hex.digit d with
        | none => simp [hd, Hex.pack, show Hex.digit 32 = none from rfl]
        | some n => simp [hd, Hex.pack, show Hex.digit 32 = none from rfl]
  rw [hnil, List.append_nil]

/-- The text up to the next space. -/
theorem substr_token {s rest : List UInt8} (hs : 32 ∉ s) (hb : Boundary rest) :
    substr (s ++ rest) 0 (find (s ++ rest) 32 0) = .ok s := by
  rcases find_space hs hb with hn | ⟨hn, rfl⟩
  · rw [hn]
    simp [substr]
  · rw [hn]
    simp [substr]

/-- The length in the `0x` branch counts the two characters of `0x` as well. -/
theorem substr_two_more {digits rest : List UInt8} (hs : 32 ∉ 48 :: 120 :: digits)
    (hb : Boundary rest) :
    substr (48 :: 120 :: digits ++ rest) 2 (find (48 :: 120 :: digits ++ rest) 32 0) =
      .ok (digits ++ rest.take 2) := by
  rcases find_space hs hb with hn | ⟨hn, rfl⟩
  · have htake : (digits ++ rest).take (digits.length + 2) = digits ++ rest.take 2 := by
      rw [List.take_append, List.take_of_length_le (by omega), Nat.add_sub_cancel_left]
    rw [hn, substr, if_neg (by simp)]
    exact congrArg Except.ok htake
  · rw [hn]
    simp [substr]

theorem token_quoted (cryptopp : CryptoPP) {content : List UInt8} (plain : 34 ∉ content)
    (rest : List UInt8) :
    token cryptopp (34 :: (content ++ 34 :: rest)) = .ok (content, rest) := by
  have hfind : find (34 :: (content ++ 34 :: rest)) 34 1 = some (1 + content.length) := by
    have h : (34 :: (content ++ 34 :: rest)).drop 1 = content ++ 34 :: rest := rfl
    rw [find, h, if_pos (by simp), List.idxOf_append_of_notMem plain, List.idxOf_cons_self,
      add_zero]
  have hs2 : substr (34 :: (content ++ 34 :: rest)) 1 (some content.length) = .ok content := by
    rw [substr, if_neg (by simp)]
    simp
  have hrest : substr (34 :: (content ++ 34 :: rest)) (content.length + 2) none = .ok rest := by
    rw [substr, if_neg (by simp)]
    simp [List.drop_append]
  simp only [token, List.head?_cons, if_true, hfind, Option.map_some, Nat.add_sub_cancel_left,
    hs2, hrest, bind, Except.bind]

/-- The rest has no part in `0x`. -/
theorem take_two_append {t rest : List UInt8} (hb : Boundary rest) :
    (t ++ rest).take 2 = [48, 120] ↔ ∃ digits, t = 48 :: 120 :: digits := by
  have hrest : ∀ {n c l}, rest.take (n + 1) = c :: l → c = 32 := by
    intro n c l h
    refine hb c ?_
    cases rest with
    | nil => cases h
    | cons d rest =>
      rw [List.take_succ_cons, List.cons.injEq] at h
      simp [h.1]
  constructor
  · intro h
    match t with
    | [] => exact absurd (hrest h) (by decide)
    | [c] =>
      rw [List.cons_append, List.take_succ_cons, List.cons.injEq] at h
      exact absurd (hrest h.2) (by decide)
    | c :: d :: t =>
      simp only [List.cons_append, List.take_succ_cons, List.take_zero, List.cons.injEq,
        and_true] at h
      exact ⟨t, by rw [h.1, h.2]⟩
  · rintro ⟨digits, rfl⟩
    rfl

/-- The third branch. -/
theorem token_third {cryptopp : CryptoPP} {s rest : List UInt8} (hs : 32 ∉ s) (hb : Boundary rest)
    (hq : (s ++ rest).head? ≠ some 34) (hx : ∀ digits, s ≠ 48 :: 120 :: digits) :
    token cryptopp (s ++ rest) = .ok (cryptopp.hexDecoder s, rest) := by
  have htwo : (s ++ rest).take 2 ≠ [48, 120] := by
    intro h
    obtain ⟨digits, h⟩ := (take_two_append hb).mp h
    exact hx digits h
  simp only [token, if_neg hq, if_neg htwo, substr_token hs hb, substr_rest hs hb, bind,
    Except.bind]

/-- The `0x` branch. -/
theorem token_second {cryptopp : CryptoPP} {digits rest : List UInt8}
    (hs : 32 ∉ 48 :: 120 :: digits) (hb : Boundary rest) :
    token cryptopp (48 :: 120 :: digits ++ rest) =
      .ok (cryptopp.hexDecoder (digits ++ rest.take 2), rest) := by
  have hq : (48 :: 120 :: digits ++ rest).head? ≠ some 34 := by simp
  have htwo : (48 :: 120 :: digits ++ rest).take 2 = [48, 120] := rfl
  simp only [token, if_neg hq, if_pos htwo, substr_two_more hs hb, substr_rest hs hb, bind,
    Except.bind]

theorem token_bare {cryptopp : CryptoPP} (hc : cryptopp.Documented) {digits rest : List UInt8}
    (hhex : ∀ c ∈ digits, Hex.isDigit c = true) (hne : digits ≠ []) (hb : Boundary rest) :
    token cryptopp (digits ++ rest) = .ok (Hex.decode digits, rest) := by
  rw [← hc digits]
  refine token_third (not_mem_of_kind hhex rfl) hb ?_ ?_
  · obtain ⟨c, t, rfl⟩ := List.exists_cons_of_ne_nil hne
    simp only [List.cons_append, List.head?_cons, ne_eq, Option.some.injEq]
    exact ne_of_kind (hhex c List.mem_cons_self) rfl
  · rintro t rfl
    cases hhex 120 (by simp)

theorem token_prefixed {cryptopp : CryptoPP} (hc : cryptopp.Documented)
    {digits rest : List UInt8} (hhex : ∀ c ∈ digits, Hex.isDigit c = true) (hb : Boundary rest) :
    token cryptopp (48 :: 120 :: digits ++ rest) =
      .ok (Hex.decode (digits ++ rest.take 2), rest) := by
  rw [← hc]
  refine token_second ?_ hb
  simp only [List.mem_cons, not_or]
  exact ⟨by decide, by decide, not_mem_of_kind hhex rfl⟩

/-- **One token.** -/
theorem token_item {cryptopp : CryptoPP} (hc : cryptopp.Documented) (i : Item)
    {rest : List UInt8} (hb : Boundary rest) :
    token cryptopp (i.text ++ rest) = .ok (i.bytes, rest) := by
  cases i with
  | quoted content plain =>
    have htext : (Item.quoted content plain).text ++ rest = 34 :: (content ++ 34 :: rest) := by
      simp [Item.text]
    rw [htext]
    exact token_quoted cryptopp plain rest
  | bare digits hex even nonempty => exact token_bare hc hex nonempty hb
  | prefixed digits hex even =>
    have h := token_prefixed hc hex hb
    rw [decode_two_more hex even hb] at h
    exact h

/-! ## Numbers -/

theorem takeSign_of_ne {c : UInt8} {s : List UInt8} (h1 : c ≠ 45) (h2 : c ≠ 43) :
    takeSign (c :: s) = (false, c :: s) := by
  unfold takeSign
  split
  · exact absurd (List.cons.inj ‹_›).1 h1
  · exact absurd (List.cons.inj ‹_›).1 h2
  · rfl

theorem not_isSpace_of_isDigit {c : UInt8} (h : Hex.isDigit c = true) : isSpace c = false := by
  have hne : c ≠ 32 := (starts_of_isDigit h).1
  have h13 : (13 : UInt8).toNat = 13 := rfl
  have hlow := Hex.le_toNat_of_isDigit h
  simp only [isSpace, hne, decide_false, Bool.false_or, Bool.and_eq_false_iff,
    decide_eq_false_iff_not, UInt8.le_iff_toNat_le]
  omega

theorem isDigit_of_isDecDigit {c : UInt8} (h : isDecDigit c = true) : Hex.isDigit c = true := by
  simp only [isDecDigit, Bool.and_eq_true, decide_eq_true_eq] at h
  rw [Hex.isDigit, Hex.digit, if_pos h]
  rfl

/-- Without a sign there are only digits to read, up to where they end. -/
theorem atoi_digits {digits rest : List UInt8} (hdec : ∀ c ∈ digits, isDecDigit c = true)
    (hne : digits ≠ []) (hend : ∀ c ∈ rest.head?, isDecDigit c = false) :
    atoi (digits ++ rest) = (min (2 ^ 63 - 1 : Int) (decValue digits)).bmod (2 ^ 32) := by
  have hrun : (digits ++ rest).takeWhile isDecDigit = digits := takeWhile_append hdec hend
  obtain ⟨c, t, hct⟩ := List.exists_cons_of_ne_nil hne
  have hc : isDecDigit c = true := hdec c (by rw [hct]; exact List.mem_cons_self)
  have hstart : takeSign ((digits ++ rest).dropWhile isSpace) = (false, digits ++ rest) := by
    rw [hct, List.cons_append, List.dropWhile_cons, if_neg (by
      simp [not_isSpace_of_isDigit (isDigit_of_isDecDigit hc)])]
    exact takeSign_of_ne (ne_of_kind hc rfl) (ne_of_kind hc rfl)
  have hlong : max (-2 ^ 63) (min (2 ^ 63 - 1) (decValue digits : Int)) =
      min (2 ^ 63 - 1 : Int) (decValue digits) := by omega
  simp only [atoi, hstart, hrun, Bool.false_eq_true, if_false, hlong]

theorem atoi_digits_nil {digits : List UInt8} (hdec : ∀ c ∈ digits, isDecDigit c = true)
    (hne : digits ≠ []) :
    atoi digits = (min (2 ^ 63 - 1 : Int) (decValue digits)).bmod (2 ^ 32) := by
  have hend : ∀ c ∈ ([] : List UInt8).head?, isDecDigit c = false := fun c hc => by cases hc
  simpa using atoi_digits hdec hne hend

theorem takeRepeat_none {s : List UInt8} (h : s.head? ≠ some 114) : takeRepeat s = .ok (1, s) :=
  if_neg h

/-- A prefix goes up to the next space. -/
theorem takeRepeat_spaced {s : List UInt8} (hs : 32 ∉ s) (rest : List UInt8) :
    takeRepeat (114 :: (s ++ 32 :: rest)) = .ok (atoi (s ++ 32 :: rest), rest) := by
  have hfind : find (s ++ 32 :: rest) 32 0 = some s.length := by
    rw [find_append hs]
    simp
  have hrest : substr (s ++ 32 :: rest) (s.length + 1) none = .ok rest := by
    rw [substr, if_neg (by simp)]
    simp [List.drop_append]
  simp only [takeRepeat, List.head?_cons, if_true, List.drop_succ_cons, List.drop_zero, hfind,
    Option.elim_some, hrest, bind, Except.bind]

/-- Without a space, what stands behind the `r` is the count and the rest. -/
theorem takeRepeat_unspaced {s : List UInt8} (hs : 32 ∉ s) :
    takeRepeat (114 :: s) = .ok (atoi s, s) := by
  have hfind : find s 32 0 = none := by simp [find, hs]
  have hrest : substr s 0 none = .ok s := by simp [substr]
  simp only [takeRepeat, List.head?_cons, if_true, List.drop_succ_cons, List.drop_zero, hfind,
    Option.elim_none, hrest, bind, Except.bind]

/-- What stands behind the next space has no part in the count. -/
theorem takeRepeat_digits {digits : List UInt8} (hdec : ∀ c ∈ digits, isDecDigit c = true)
    (hne : digits ≠ []) (rest : List UInt8) :
    takeRepeat (114 :: (digits ++ 32 :: rest)) = .ok (atoi digits, rest) := by
  have hcount : atoi (digits ++ 32 :: rest) = atoi digits := by
    rw [atoi_digits hdec hne (by simp [isDecDigit]), atoi_digits_nil hdec hne]
  rw [takeRepeat_spaced (not_mem_of_kind hdec rfl), hcount]

theorem atoi_count (n : Count) : atoi n.digits = decValue n.digits := by
  have hsmall := n.small
  rw [atoi_digits_nil n.decimal n.nonempty, min_eq_right (by omega)]
  exact Int.bmod_eq_of_le (by omega) (by omega)

/-- **The repeat prefix.** -/
theorem takeRepeat_entry (e : Entry) (rest : List UInt8) :
    takeRepeat (e.text ++ rest) = .ok ((e.count : Int), e.item.text ++ rest) := by
  obtain ⟨times, item⟩ := e
  cases times with
  | none =>
    obtain ⟨c, t, ht, hc⟩ := item.text_head
    have hhead : (item.text ++ rest).head? ≠ some 114 := by
      rw [ht]
      simpa using hc.2.1
    exact takeRepeat_none hhead
  | some n =>
    have h := takeRepeat_digits n.decimal n.nonempty (item.text ++ rest)
    rw [atoi_count] at h
    simpa only [Entry.text, Entry.count, Option.elim_some, List.cons_append, List.append_assoc]
      using h

/-! ## Turns -/

/-- **One turn for an entry.** It leaves the rest of the text, and the bytes of the
entry are on their way. -/
theorem turn_entry {cryptopp : CryptoPP} (hc : cryptopp.Documented) (k : Nat) (e : Entry)
    {rest : List UInt8} (hb : Boundary rest) (io : Io) :
    ∃ io', turn cryptopp (spaces k ++ (e.text ++ rest)) io = .ok (some rest, io') ∧
      io'.stream = io.stream ++ e.bytes := by
  obtain ⟨io', hput, hs⟩ := repeatPut_ok e.item.bytes e.count io
  refine ⟨io', ?_, hs⟩
  obtain ⟨c, t, ht, hc32⟩ := e.text_head
  have hskip : skipSpaces (spaces k ++ (e.text ++ rest)) = e.text ++ rest := by
    rw [ht]
    exact skipSpaces_append hc32 k _
  have hne : e.text ++ rest ≠ [] := by
    rw [ht]
    simp
  have hword : ¬(6 ≤ (e.item.text ++ rest).length ∧
      ((e.item.text ++ rest).take 6 = word32 ∨ (e.item.text ++ rest).take 6 = word64)) := by
    obtain ⟨c, t, ht, hc⟩ := e.item.text_head
    rintro ⟨-, h | h⟩
    · rw [ht] at h
      exact hc.2.2 (List.cons.inj h).1
    · rw [ht] at h
      exact hc.2.2 (List.cons.inj h).1
  have hput' : putRepeated e.item.bytes e.count io = .ok io' := by
    rw [putRepeated, if_neg (by omega), Int.toNat_natCast]
    exact hput
  simp only [turn, hskip, if_neg hne, takeRepeat_entry, if_neg hword, token_item hc e.item hb,
    hput', bind, Except.bind]

/-! ## Words -/

/-- What follows the first digits of a word, or the word. -/
theorem head_of_digits {digits tail : List UInt8} (hhex : ∀ c ∈ digits, Hex.isDigit c = true)
    (hb : Boundary tail) {c : UInt8} (hc : c ∈ (digits ++ tail).head?) :
    Hex.isDigit c = true ∨ c = 32 := by
  cases digits with
  | nil => exact Or.inr (hb c hc)
  | cons d digits =>
    simp only [List.cons_append, List.head?_cons, Option.mem_def, Option.some.injEq] at hc
    subst hc
    exact Or.inl (hhex d List.mem_cons_self)

theorem takeBasePrefix_zero {s : List UInt8} (h : ∀ c ∈ s.head?, c ≠ 120 ∧ c ≠ 88) :
    takeBasePrefix (48 :: s) = (true, s) := by
  cases s with
  | nil => rfl
  | cons c s =>
    obtain ⟨h1, h2⟩ := h c (by simp)
    unfold takeBasePrefix
    split
    · exact absurd (List.cons.inj (List.cons.inj ‹_›).2).1 h1
    · exact absurd (List.cons.inj (List.cons.inj ‹_›).2).1 h2
    · rename_i heq
      rw [(List.cons.inj heq).2]
    · rename_i hnot
      exact absurd rfl (hnot _)

theorem takeBasePrefix_of_ne {c : UInt8} {s : List UInt8} (h : c ≠ 48) :
    takeBasePrefix (c :: s) = (false, c :: s) := by
  unfold takeBasePrefix
  split
  · exact absurd (List.cons.inj ‹_›).1 h
  · exact absurd (List.cons.inj ‹_›).1 h
  · exact absurd (List.cons.inj ‹_›).1 h
  · rfl

/-- Without `0x`, at most one leading zero goes with the prefix, and the number
stays the same. -/
theorem takeBasePrefix_digits {digits tail : List UInt8}
    (hhex : ∀ c ∈ digits, Hex.isDigit c = true) (hne : digits ≠ []) (hb : Boundary tail) :
    ∃ zero ds, takeBasePrefix (digits ++ tail) = (zero, ds ++ tail) ∧
      (∀ c ∈ ds, Hex.isDigit c = true) ∧ Hex.value ds = Hex.value digits ∧
      ¬(ds = [] ∧ zero = false) := by
  obtain ⟨c, ds, rfl⟩ := List.exists_cons_of_ne_nil hne
  have hds : ∀ d ∈ ds, Hex.isDigit d = true := fun d hd => hhex d (List.mem_cons_of_mem c hd)
  by_cases hc : c = 48
  · subst hc
    refine ⟨true, ds, takeBasePrefix_zero ?_, hds, rfl, by simp⟩
    intro d hd
    rcases head_of_digits hds hb hd with h | rfl
    · exact ⟨ne_of_kind h rfl, ne_of_kind h rfl⟩
    · exact ⟨by decide, by decide⟩
  · exact ⟨false, c :: ds, takeBasePrefix_of_ne hc, hhex, rfl, by simp⟩

/-- The prefix of either form of a word. -/
theorem takeBasePrefix_word {width : Width} (w : Word width) {tail : List UInt8}
    (hb : Boundary tail) :
    ∃ zero ds, takeBasePrefix (w.text ++ tail) = (zero, ds ++ tail) ∧
      (∀ c ∈ ds, Hex.isDigit c = true) ∧ Hex.value ds = Hex.value w.digits ∧
      ¬(ds = [] ∧ zero = false) := by
  cases hz : w.zeroX with
  | true =>
    refine ⟨false, w.digits, ?_, w.hex, rfl, fun h => w.nonempty h.1⟩
    rw [Word.text, if_pos hz]
    rfl
  | false =>
    rw [Word.text, if_neg (by simp [hz])]
    exact takeBasePrefix_digits w.hex w.nonempty hb

theorem Word.text_head {width : Width} (w : Word width) :
    ∃ c t, w.text = c :: t ∧ Hex.isDigit c = true := by
  cases hz : w.zeroX with
  | true => exact ⟨48, 120 :: w.digits, by rw [text, if_pos hz], by decide⟩
  | false =>
    obtain ⟨c, t, ht⟩ := List.exists_cons_of_ne_nil w.nonempty
    refine ⟨c, t, by rw [text, if_neg (by simp [hz]), ht], w.hex c ?_⟩
    rw [ht]
    exact List.mem_cons_self

/-- **One word.** -/
theorem extractHex_word {width : Width} (k : Nat) (w : Word width) {tail : List UInt8}
    (hb : Boundary tail) :
    extractHex width.bits (spaces k ++ (w.text ++ tail)) = some (Hex.value w.digits, tail) := by
  obtain ⟨c, t, ht, hc⟩ := w.text_head
  have hskip : (spaces k ++ (w.text ++ tail)).dropWhile isSpace = w.text ++ tail := by
    refine dropWhile_append (fun d hd => ?_) ?_
    · rw [List.eq_of_mem_replicate hd]
      rfl
    · simp [ht, not_isSpace_of_isDigit hc]
  have hsign : takeSign (w.text ++ tail) = (false, w.text ++ tail) := by
    rw [ht]
    exact takeSign_of_ne (ne_of_kind hc rfl) (ne_of_kind hc rfl)
  obtain ⟨zero, ds, hbase, hhex, hvalue, hread⟩ := takeBasePrefix_word w hb
  have hend : ∀ d ∈ tail.head?, Hex.isDigit d = false := by
    intro d hd
    rw [hb d hd]
    rfl
  have hrange : ¬2 ^ width.bits ≤ Hex.value w.digits := Nat.not_le.mpr w.inRange
  simp only [extractHex, hskip, hsign, hbase, takeWhile_append hhex hend,
    dropWhile_append hhex hend, if_neg hread, hvalue, if_neg hrange, Bool.false_eq_true, if_false]

/-- **All the words of a section.** -/
theorem extractAll_valuesText {width : Width} (values : List (Nat × Word width)) :
    extractAll width.bits (Words.valuesText values) =
      values.map fun v => Hex.value v.2.digits := by
  suffices h : ∀ n, (Words.valuesText values).length ≤ n →
      extractAll.go width.bits n (Words.valuesText values) =
        values.map fun v => Hex.value v.2.digits from h _ le_rfl
  induction values with
  | nil =>
    intro n _
    cases n with
    | zero => rfl
    | succ n => rfl
  | cons v values ih =>
    intro n hn
    have htext : Words.valuesText (v :: values) =
        spaces (v.1 + 1) ++ (v.2.text ++ Words.valuesText values) := by
      rw [Words.valuesText, List.flatMap_cons, List.append_assoc]
      rfl
    rw [htext] at hn ⊢
    simp only [List.length_append, spaces, List.length_replicate] at hn
    obtain ⟨n, rfl⟩ := Nat.exists_eq_succ_of_ne_zero (show n ≠ 0 by omega)
    rw [extractAll.go, extractHex_word _ _ (Words.boundary_valuesText values)]
    simp only [List.map_cons, ih n (by omega)]

theorem Words.take_text (s : Words) : s.text.take 6 = s.width.keyword := by
  obtain ⟨width, values⟩ := s
  cases width with
  | word32 => rfl
  | word64 => rfl

theorem Words.drop_text (s : Words) : s.text.drop 6 = valuesText s.values := by
  obtain ⟨width, values⟩ := s
  cases width with
  | word32 => rfl
  | word64 => rfl

theorem wordSection_text (s : Words) : wordSection s.text = s.bytes := by
  rw [wordSection, s.take_text, s.drop_text]
  obtain ⟨width, values⟩ := s
  have h := extractAll_valuesText values
  cases width with
  | word32 =>
    rw [if_neg (show Width.word32.keyword ≠ word64 by decide)]
    change (extractAll Width.word32.bits _).flatMap _ = _
    rw [h, List.flatMap_map]
    rfl
  | word64 =>
    rw [if_pos (show Width.word64.keyword = word64 from rfl)]
    change (extractAll Width.word64.bits _).flatMap _ = _
    rw [h, List.flatMap_map]
    rfl

theorem Words.text_head (s : Words) : ∃ t, s.text = 119 :: t := by
  obtain ⟨width, values⟩ := s
  cases width with
  | word32 => exact ⟨_, rfl⟩
  | word64 => exact ⟨_, rfl⟩

/-- **The turn for a final section**, which is the last one. -/
theorem turn_words (cryptopp : CryptoPP) (k : Nat) (s : Words) (io : Io) :
    ∃ io', turn cryptopp (spaces k ++ s.text) io = .ok (none, io') ∧
      io'.stream = io.stream ++ s.bytes := by
  refine ⟨{ io with q := io.q ++ s.bytes }, ?_, by simp [Io.stream]⟩
  obtain ⟨t, ht⟩ := s.text_head
  have hskip : skipSpaces (spaces k ++ s.text) = s.text := by
    rw [ht]
    exact skipSpaces_append (by decide) k t
  have hne : s.text ≠ [] := by simp [ht]
  have hrepeat : takeRepeat s.text = .ok (1, s.text) := by
    rw [takeRepeat, if_neg (by simp [ht])]
  have hword : 6 ≤ s.text.length ∧ (s.text.take 6 = word32 ∨ s.text.take 6 = word64) := by
    rw [s.take_text]
    constructor
    · have hlen : (s.text.take 6).length = 6 := by
        rw [s.take_text]
        cases s.width with
        | word32 => rfl
        | word64 => rfl
      rw [List.length_take] at hlen
      omega
    · cases s.width with
      | word32 => exact Or.inl rfl
      | word64 => exact Or.inr rfl
  simp only [turn, hskip, if_neg hne, hrepeat, if_pos hword, wordSection_text, bind, Except.bind]

/-! ## Runs -/

theorem parseLoop_nil (cryptopp : CryptoPP) (fuel : Nat) (io : Io) :
    parseLoop cryptopp fuel [] io = .ok io := by
  cases fuel with
  | zero => rfl
  | succ fuel => rfl

/-- A text that begins with an entry. -/
theorem parseLoop_entry {cryptopp : CryptoPP} (hc : cryptopp.Documented) (fuel k : Nat)
    (e : Entry) {rest : List UInt8} (hb : Boundary rest) (io : Io) :
    ∃ io', parseLoop cryptopp (fuel + 1) (spaces k ++ (e.text ++ rest)) io =
        parseLoop cryptopp fuel rest io' ∧ io'.stream = io.stream ++ e.bytes := by
  obtain ⟨io', hturn, hs⟩ := turn_entry hc k e hb io
  refine ⟨io', ?_, hs⟩
  have hne : spaces k ++ (e.text ++ rest) ≠ [] := by
    obtain ⟨c, t, ht, -⟩ := e.text_head
    simp [ht]
  rw [parseLoop, if_neg hne, hturn]
  rfl

theorem parseLoop_words (cryptopp : CryptoPP) (fuel k : Nat) (s : Words) (io : Io) :
    ∃ io', parseLoop cryptopp (fuel + 1) (spaces k ++ s.text) io = .ok io' ∧
      io'.stream = io.stream ++ s.bytes := by
  obtain ⟨io', hturn, hs⟩ := turn_words cryptopp k s io
  refine ⟨io', ?_, hs⟩
  have hne : spaces k ++ s.text ≠ [] := by
    obtain ⟨t, ht⟩ := s.text_head
    simp [ht]
  rw [parseLoop, if_neg hne, hturn]
  rfl

/-- By induction on the entries: what is on its way grows by the bytes of each. -/
theorem parseLoop_tail {cryptopp : CryptoPP} (hc : cryptopp.Documented) (t : Tail)
    {fuel : Nat} (hf : t.entries.length + 1 ≤ fuel) (io : Io) :
    ∃ io', parseLoop cryptopp fuel t.text io = .ok io' ∧ io'.stream = io.stream ++ t.bytes := by
  obtain ⟨entries, final⟩ := t
  induction entries generalizing fuel io with
  | nil =>
    obtain ⟨fuel, rfl⟩ := Nat.exists_eq_add_of_le' hf
    cases final with
    | none =>
      refine ⟨io, parseLoop_nil cryptopp _ io, ?_⟩
      simp [Tail.bytes, Tail.finalBytes]
    | some s => exact parseLoop_words cryptopp fuel (s.1 + 1) s.2 io
  | cons e entries ih =>
    simp only [List.length_cons] at hf
    obtain ⟨fuel, rfl⟩ : ∃ n, fuel = n + 1 := ⟨fuel - 1, by omega⟩
    have htext : Tail.text ⟨e :: entries, final⟩ =
        spaces (e.1 + 1) ++ (e.2.text ++ Tail.text ⟨entries, final⟩) := by
      simp only [Tail.text, List.flatMap_cons, List.append_assoc]
    have hbytes : Tail.bytes ⟨e :: entries, final⟩ = e.2.bytes ++ Tail.bytes ⟨entries, final⟩ := by
      simp only [Tail.bytes, List.flatMap_cons, List.append_assoc]
    obtain ⟨io₁, h₁, hs₁⟩ := parseLoop_entry hc fuel (e.1 + 1) e.2
      (Tail.boundary_text ⟨entries, final⟩) io
    obtain ⟨io₂, h₂, hs₂⟩ := ih io₁ (Nat.le_of_succ_le_succ hf)
    exact ⟨io₂, by rw [htext, h₁, h₂], by rw [hs₂, hs₁, hbytes, List.append_assoc]⟩

theorem parseLoop_datum {cryptopp : CryptoPP} (hc : cryptopp.Documented) (d : Datum)
    {fuel : Nat} (hf : d.turns ≤ fuel) (io : Io) :
    ∃ io', parseLoop cryptopp fuel d.text io = .ok io' ∧ io'.stream = io.stream ++ d.bytes := by
  cases d with
  | empty => exact ⟨io, parseLoop_nil cryptopp fuel io, by simp [Datum.bytes]⟩
  | words lead s =>
    obtain ⟨fuel, rfl⟩ := Nat.exists_eq_add_of_le' hf
    exact parseLoop_words cryptopp fuel lead s io
  | entries lead first tail =>
    obtain ⟨fuel, rfl⟩ : ∃ n, fuel = n + 1 := ⟨fuel - 1, by simp only [Datum.turns] at hf; omega⟩
    obtain ⟨io₁, h₁, hs₁⟩ := parseLoop_entry hc fuel lead first tail.boundary_text io
    obtain ⟨io₂, h₂, hs₂⟩ := parseLoop_tail hc tail (Nat.le_of_succ_le_succ hf) io₁
    refine ⟨io₂, h₁.trans h₂, ?_⟩
    rw [hs₂, hs₁, Datum.bytes, List.append_assoc]

/-- **The denotation of a datum.** Whatever is drawn, the parser returns, and the
target has received exactly the bytes that the datum stands for. -/
theorem putDecodedDatumInto_text (cryptopp : CryptoPP) (hc : cryptopp.Documented) (d : Datum)
    (target : List UInt8) (draws : Nat → Nat) (fuel : Nat) (hf : d.turns ≤ fuel) :
    putDecodedDatumInto cryptopp fuel d.text target draws = .ok (target ++ d.bytes) := by
  obtain ⟨io₁, h₁, hs₁⟩ := parseLoop_datum hc d hf ⟨[], target, draws, 0⟩
  obtain ⟨io₂, h₂, hs₂, hq⟩ := randomizedTransfer_ok io₁ true
  have htarget : io₂.target = target ++ d.bytes := by
    have hs := hs₂.trans hs₁
    rw [Io.stream, hq rfl] at hs
    simpa [Io.stream] using hs
  simp only [putDecodedDatumInto, h₁, h₂, htarget, bind, Except.bind]

/-- ` r2 "a" 0x0a word32 5` behind a byte that is already there. -/
theorem putDecodedDatumInto_text_run :
    putDecodedDatumInto ⟨Hex.decode⟩ 3
      [32, 114, 50, 32, 34, 97, 34, 32, 48, 120, 48, 97, 32, 119, 111, 114, 100, 51, 50, 32, 53]
      [7] id = .ok [7, 97, 97, 10, 5, 0, 0, 0] := by
  have h := putDecodedDatumInto_text ⟨Hex.decode⟩ (fun _ => rfl)
    (.entries 1 ⟨some ⟨[50], List.all_eq_true.mp rfl, by simp, by decide⟩, .quoted [97] (by simp)⟩
      ⟨[(0, ⟨none, .prefixed [48, 97] (List.all_eq_true.mp rfl) rfl⟩)],
        some (0, ⟨.word32, [(0, ⟨false, [53], List.all_eq_true.mp rfl, by simp, by decide⟩)]⟩)⟩)
    [7] id 3 (by decide)
  exact h

end LearnFramework.Eth
