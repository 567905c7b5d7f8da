import LearnFramework.Eth.Scan

/-!
# Spaces between the tokens

The outer loop skips the spaces before a token, but behind an `rN` prefix only the
one space up to which the prefix goes is taken off. At a second one the turn takes a
token of no characters, repeats that, and the next turn takes the item once. So the
spacing is irrelevant between phrases, and within one exactly when the count does
not matter. A count that `atoi` makes negative is never run down, whatever the spacing.
-/

namespace LearnFramework.Eth

/-- The `N` of a prefix, as large as it may be. -/
structure Numeral where
  digits : List UInt8
  decimal : ∀ c ∈ digits, isDecDigit c = true
  nonempty : digits ≠ []

def Numeral.count (n : Numeral) : Int := atoi n.digits

/-- An item, or a prefix and an item. -/
structure Phrase where
  times : Option Numeral
  item : Item

/-- The additional spaces before a phrase and behind its prefix. -/
structure Gaps where
  before : Nat
  inside : Nat

namespace Phrase

def text (inside : Nat) (p : Phrase) : List UInt8 :=
  match p.times with
  | none => p.item.text
  | some n => 114 :: (n.digits ++ (spaces (inside + 1) ++ p.item.text))

/-- What a phrase stands for to the parser. -/
def bytes (inside : Nat) (p : Phrase) : List UInt8 :=
  match p.times with
  | none => p.item.bytes
  | some n => if inside = 0 then repeated p.item.bytes n.count else p.item.bytes

/-- The count is beyond the largest `int`, and a negative one to `atoi`. -/
def Negative (p : Phrase) : Prop := ∃ n, p.times = some n ∧ n.count < 0

/-- The count does not matter: it is 1, or there is nothing to repeat. -/
def Once (p : Phrase) : Prop := ∀ n, p.times = some n → n.count = 1 ∨ p.item.bytes = []

end Phrase

def phrasesText (es : List (Gaps × Phrase)) : List UInt8 :=
  es.flatMap fun e => spaces (e.1.before + 1) ++ e.2.text e.1.inside

/-- A datum string: spaces at its start, and at least one between two tokens. -/
def spacedText (lead : Nat) : List (Gaps × Phrase) → List UInt8
  | [] => []
  | e :: es => spaces lead ++ (e.2.text e.1.inside ++ phrasesText es)

def spacedBytes (es : List (Gaps × Phrase)) : List UInt8 := es.flatMap fun e => e.2.bytes e.1.inside

variable {cryptopp : CryptoPP}

/-! ## Phrases -/

theorem boundary_phrasesText (es : List (Gaps × Phrase)) : Boundary (phrasesText es) := by
  cases es with
  | nil => exact boundary_nil
  | cons e es =>
    rw [phrasesText, List.flatMap_cons, List.append_assoc]
    exact boundary_spaces _ _

theorem starts_item (i : Item) (rest : List UInt8) : ∃ c t, i.text ++ rest = c :: t ∧ Starts c := by
  obtain ⟨c, t, ht, hc⟩ := i.text_head
  exact ⟨c, t ++ rest, by rw [ht]; rfl, hc⟩

theorem delivers_itemText (hc : cryptopp.Documented) (k : Nat) (i : Item)
    {rest bytes : List UInt8} (hb : Boundary rest) :
    Delivers cryptopp (spaces k ++ (i.text ++ rest)) bytes ↔
      ∃ out, Delivers cryptopp rest out ∧ bytes = i.bytes ++ out := by
  have hs := starts_item i rest
  have hne : spaces k ++ (i.text ++ rest) ≠ [] := by
    obtain ⟨c, t, ht, -⟩ := hs
    simp [ht]
  rw [delivers_item hne (scan_plain hs (token_item hc i hb)), repeated_one]
  exact and_iff_right (by decide)

/-- A turn on a prefix and what follows its space. -/
theorem scan_numeral (k : Nat) (n : Numeral) {s bytes rest : List UInt8} (hw : s.head? ≠ some 119)
    (htoken : token cryptopp s = .ok (bytes, rest)) :
    scan cryptopp (spaces k ++ 114 :: (n.digits ++ 32 :: s)) =
      .ok (.item bytes n.count rest) := by
  have hskip : skipSpaces (spaces k ++ 114 :: (n.digits ++ 32 :: s)) =
      114 :: (n.digits ++ 32 :: s) := skipSpaces_append (by decide) k _
  refine scan_of_token (by rw [hskip]; simp) ?_ hw htoken
  rw [hskip]
  exact takeRepeat_digits n.decimal n.nonempty s

/-- **One phrase.** With one space behind the prefix the item is repeated; with more,
nothing is, and the item is left for the next turn. -/
theorem delivers_phrase (hc : cryptopp.Documented) (k inside : Nat) (p : Phrase)
    {rest bytes : List UInt8} (hb : Boundary rest) :
    Delivers cryptopp (spaces k ++ (p.text inside ++ rest)) bytes ↔
      ¬p.Negative ∧ ∃ out, Delivers cryptopp rest out ∧ bytes = p.bytes inside ++ out := by
  obtain ⟨times, item⟩ := p
  cases times with
  | none =>
    have hpos : ¬Phrase.Negative ⟨none, item⟩ := fun ⟨n, hn, _⟩ => by cases hn
    exact (delivers_itemText hc k item hb).trans (and_iff_right hpos).symm
  | some n =>
    have hneg : ¬Phrase.Negative ⟨some n, item⟩ ↔ 0 ≤ n.count := by
      simp [Phrase.Negative]
    have hne : spaces k ++ 114 :: (n.digits ++ 32 :: (spaces inside ++ (item.text ++ rest))) ≠
        [] := by simp
    have htext : spaces k ++ (Phrase.text inside ⟨some n, item⟩ ++ rest) =
        spaces k ++ 114 :: (n.digits ++ 32 :: (spaces inside ++ (item.text ++ rest))) := by
      simp [Phrase.text, spaces, List.replicate_succ]
    rw [htext, hneg]
    cases inside with
    | zero =>
      have hw : (item.text ++ rest).head? ≠ some 119 := by
        obtain ⟨c, t, ht, hstart⟩ := starts_item item rest
        simpa [ht] using hstart.2.2
      exact delivers_item hne (scan_numeral k n hw (token_item hc item hb))
    | succ inside =>
      have hhead : (spaces (inside + 1) ++ (item.text ++ rest)).head? = some 32 := by
        simp [spaces, List.replicate_succ]
      rw [delivers_item hne (scan_numeral k n (by simp [hhead]) (token_space hhead)),
        hc [], show Hex.decode [] = [] from rfl, repeated_nil]
      simp only [List.nil_append, exists_eq_right', delivers_itemText hc _ item hb]
      rfl

/-! ## Datum strings -/

/-- A phrase before text that delivers the bytes of phrases. -/
theorem delivers_phrase_cons (hc : cryptopp.Documented) (k : Nat) (e : Gaps × Phrase)
    {es : List (Gaps × Phrase)} (h : ∀ out, Delivers cryptopp (phrasesText es) out ↔
      (∀ e ∈ es, ¬e.2.Negative) ∧ out = spacedBytes es) {bytes : List UInt8} :
    Delivers cryptopp (spaces k ++ (e.2.text e.1.inside ++ phrasesText es)) bytes ↔
      (∀ e' ∈ e :: es, ¬e'.2.Negative) ∧ bytes = spacedBytes (e :: es) := by
  rw [delivers_phrase hc _ _ _ (boundary_phrasesText es)]
  simp only [h, List.forall_mem_cons, spacedBytes, List.flatMap_cons]
  constructor
  · rintro ⟨hp, out, ⟨hes, rfl⟩, rfl⟩
    exact ⟨⟨hp, hes⟩, rfl⟩
  · rintro ⟨⟨hp, hes⟩, rfl⟩
    exact ⟨hp, _, ⟨hes, rfl⟩, rfl⟩

/-- By induction on the phrases. -/
theorem delivers_phrasesText (hc : cryptopp.Documented) (es : List (Gaps × Phrase))
    {bytes : List UInt8} :
    Delivers cryptopp (phrasesText es) bytes ↔
      (∀ e ∈ es, ¬e.2.Negative) ∧ bytes = spacedBytes es := by
  induction es generalizing bytes with
  | nil => simp [phrasesText, spacedBytes, delivers_nil]
  | cons e es ih =>
    have htext : phrasesText (e :: es) =
        spaces (e.1.before + 1) ++ (e.2.text e.1.inside ++ phrasesText es) := by
      rw [phrasesText, List.flatMap_cons, List.append_assoc]
      rfl
    rw [htext]
    exact delivers_phrase_cons hc _ e fun _ => ih

theorem delivers_spacedText (hc : cryptopp.Documented) (lead : Nat) (es : List (Gaps × Phrase))
    {bytes : List UInt8} :
    Delivers cryptopp (spacedText lead es) bytes ↔
      (∀ e ∈ es, ¬e.2.Negative) ∧ bytes = spacedBytes es := by
  cases es with
  | nil => simp [spacedText, spacedBytes, delivers_nil]
  | cons e es => exact delivers_phrase_cons hc lead e fun _ => delivers_phrasesText hc es

theorem exists_negative_iff {es : List (Gaps × Phrase)} {ps : List Phrase}
    (h : es.map Prod.snd = ps) : (∀ e ∈ es, ¬e.2.Negative) ↔ ¬∃ p ∈ ps, p.Negative := by
  subst h
  simp only [List.mem_map, not_exists, not_and]
  constructor
  · rintro hall p ⟨e, he, rfl⟩
    exact hall e he
  · exact fun hall e he => hall e.2 ⟨e, he, rfl⟩

/-- Between phrases the number of spaces is irrelevant, and behind a prefix it is when
both texts have one space there or both have more. -/
theorem delivers_of_same_gaps (hc : cryptopp.Documented) (lead : Nat)
    {es es' : List (Gaps × Phrase)}
    (h : List.Forall₂ (fun e e' => e.2 = e'.2 ∧ (e.1.inside = 0 ↔ e'.1.inside = 0)) es es')
    (bytes : List UInt8) :
    Delivers cryptopp (spacedText lead es) bytes ↔
      Delivers cryptopp (spacedText lead es') bytes := by
  have hmap : es.map Prod.snd = es'.map Prod.snd := by
    induction h with
    | nil => rfl
    | cons he _ ih => rw [List.map_cons, List.map_cons, he.1, ih]
  have hbytes : spacedBytes es = spacedBytes es' := by
    clear hmap
    induction h with
    | nil => rfl
    | @cons e e' es es' he _ ih =>
      have heq : e.2.bytes e.1.inside = e'.2.bytes e'.1.inside := by
        simp only [Phrase.bytes, he.1, he.2]
      rw [spacedBytes, List.flatMap_cons, heq]
      exact congrArg _ ih
  rw [delivers_spacedText hc, delivers_spacedText hc, exists_negative_iff hmap,
    exists_negative_iff rfl, hbytes]

/-! ## When the spacing is irrelevant -/

theorem Phrase.Once.bytes_eq {p : Phrase} (h : p.Once) (inside : Nat) :
    p.bytes inside = p.item.bytes := by
  obtain ⟨times, item⟩ := p
  cases times with
  | none => rfl
  | some n =>
    simp only [Phrase.bytes]
    split_ifs
    · rcases h n rfl with hcount | hnil
      · rw [hcount, repeated_one]
      · rw [hnil, repeated_nil]
    · rfl

/-- A phrase whose bytes are the same with one space and with two. -/
theorem Phrase.once_of_bytes_eq {p : Phrase} (hp : ¬p.Negative) (h : p.bytes 0 = p.bytes 1) :
    p.Once := by
  obtain ⟨times, item⟩ := p
  rintro n rfl
  have hpos : 0 ≤ n.count := by
    by_contra hneg
    exact hp ⟨n, rfl, Int.not_le.mp hneg⟩
  have hlen : n.count.toNat * item.bytes.length = 1 * item.bytes.length := by
    rw [← length_repeated, one_mul]
    exact congrArg List.length h
  by_cases hnil : item.bytes = []
  · exact Or.inr hnil
  · left
    have hone := Nat.eq_of_mul_eq_mul_right (List.length_pos_iff.mpr hnil) hlen
    omega

theorem spacedBytes_of_once {es : List (Gaps × Phrase)} (h : ∀ e ∈ es, e.2.Once) :
    spacedBytes es = (es.map Prod.snd).flatMap fun p => p.item.bytes := by
  rw [spacedBytes, List.flatMap_map]
  exact List.flatMap_congr fun e he => (h e he).bytes_eq _

/-- **Spacing.** -/
theorem spacing_irrelevant_iff (hc : cryptopp.Documented) (lead : Nat) (ps : List Phrase) :
    (∃ bytes, ∀ es : List (Gaps × Phrase), es.map Prod.snd = ps →
      Delivers cryptopp (spacedText lead es) bytes) ↔
    ∀ p ∈ ps, ¬p.Negative ∧ p.Once := by
  constructor
  · rintro ⟨bytes, hsame⟩ p hp
    obtain ⟨a, b, rfl⟩ := List.append_of_mem hp
    -- one space everywhere, and two behind the prefix of this phrase
    let one : List Phrase → List (Gaps × Phrase) := List.map fun p => (⟨0, 0⟩, p)
    have hone : ∀ l, (one l).map Prod.snd = l := fun l => by simp [one]
    have hmap : ∀ g, (one a ++ (g, p) :: one b).map Prod.snd = a ++ p :: b := fun g => by
      rw [List.map_append, List.map_cons, hone, hone]
    obtain ⟨hpos, hbytes⟩ := (delivers_spacedText hc lead _).mp (hsame _ (hmap ⟨0, 0⟩))
    obtain ⟨-, hbytes'⟩ := (delivers_spacedText hc lead _).mp (hsame _ (hmap ⟨0, 1⟩))
    have hp : ¬p.Negative := hpos (⟨0, 0⟩, p) (by simp)
    have heq := hbytes.symm.trans hbytes'
    simp only [spacedBytes, List.flatMap_append, List.flatMap_cons] at heq
    exact ⟨hp, Phrase.once_of_bytes_eq hp
      (List.append_cancel_right (List.append_cancel_left heq))⟩
  · intro hcond
    refine ⟨ps.flatMap fun p => p.item.bytes, ?_⟩
    rintro es rfl
    have hall : ∀ e ∈ es, ¬e.2.Negative ∧ e.2.Once := fun e he =>
      hcond e.2 (List.mem_map_of_mem he)
    exact (delivers_spacedText hc lead es).mpr
      ⟨fun e he => (hall e he).1, (spacedBytes_of_once fun e he => (hall e he).2).symm⟩

/-- `r1 "a" 00`. -/
theorem spacing_irrelevant_once : ∃ ps : List Phrase, ps.length = 2 ∧
    ∃ bytes, ∀ es : List (Gaps × Phrase), es.map Prod.snd = ps →
      Delivers ⟨Hex.decode⟩ (spacedText 0 es) bytes := by
  refine ⟨[⟨some ⟨[49], List.all_eq_true.mp rfl, by simp⟩, .quoted [97] (by simp)⟩,
    ⟨none, .bare [48, 48] (List.all_eq_true.mp rfl) rfl (by simp)⟩], rfl, ?_⟩
  refine (spacing_irrelevant_iff (fun _ => rfl) 0 _).mpr ?_
  simp only [List.forall_mem_cons, List.not_mem_nil, false_imp_iff, implies_true, and_true]
  refine ⟨⟨?_, ?_⟩, ?_, ?_⟩
  · rintro ⟨n, ⟨⟩, hneg⟩
    exact absurd hneg (by decide)
  · rintro n ⟨⟩
    exact Or.inl rfl
  · rintro ⟨n, ⟨⟩, -⟩
  · rintro n ⟨⟩

/-- `r2 "a"` with one space, and with two. -/
theorem spaces_behind_count :
    ∃ es es' : List (Gaps × Phrase), es.map Prod.snd = es'.map Prod.snd ∧
      ∃ bytes, Delivers ⟨Hex.decode⟩ (spacedText 0 es) bytes ∧
        ¬Delivers ⟨Hex.decode⟩ (spacedText 0 es') bytes := by
  let p : Phrase := ⟨some ⟨[50], List.all_eq_true.mp rfl, by simp⟩, .quoted [97] (by simp)⟩
  have hone : Delivers ⟨Hex.decode⟩ [114, 50, 32, 34, 97, 34] [97, 97] :=
    delivers_iff.mpr ⟨1, rfl⟩
  have htwo : Delivers ⟨Hex.decode⟩ [114, 50, 32, 32, 34, 97, 34] [97] :=
    delivers_iff.mpr ⟨2, rfl⟩
  refine ⟨[(⟨0, 0⟩, p)], [(⟨0, 1⟩, p)], rfl, [97, 97], hone, fun h => ?_⟩
  have heq := h.unique htwo
  cases heq

end LearnFramework.Eth
