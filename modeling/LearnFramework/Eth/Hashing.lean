import LearnFramework.Eth.Scan
import LearnFramework.Eth.WordBytes

/-!
# The two hashing paths

`main` of `learneth` hashes its message as it is, and then gives the same text to
`PutDecodedDatumInto`, which reads it as a datum. Both agree on the empty message. On
another one the parser would have to deliver the very text that it reads, and its
output stays behind: quotes and digits take more characters than they deliver, and a
count cannot catch up, since what it repeats would have to contain the prefix with
its space (`delivers_self`). Only a prefix without a space is left, whose digits
would have to spell out a text that they are part of (`SelfCopying`).
-/

namespace LearnFramework.Eth

/-- Keccak-256 and Crypto++'s filter for it. -/
structure HashFilter where
  /-- the digest of the bytes fed to the hash -/
  digest : List UInt8 → List UInt8
  /-- `GetLastResult` after `MessageEnd`, from the bytes that the filter has received -/
  lastResult : List UInt8 → Bool

/-- A digest has 32 bytes; with `HASH_AT_BEGIN` the filter takes the first bytes that it
receives for the expected digest, and feeds the others to the hash. -/
def HashFilter.Documented (f : HashFilter) : Prop :=
  (∀ s, (f.digest s).length = 32) ∧
    ∀ received, 32 ≤ received.length →
      (f.lastResult received = true ↔ f.digest (received.drop 32) = received.take 32)

/-- `hash->Update(data, msg.size())`: what `msg.c_str()` points to, up to the size. -/
def updateData (msg : List UInt8) : List UInt8 := (msg ++ [0]).take msg.length

/-- The text that is printed: two digits for each byte, with `setw(2)` and `setfill('0')`. -/
def ss (data_hash : List UInt8) : List UInt8 := Hex.encode data_hash

/-- What the filter receives: the datum of the digest, and the message as a datum. -/
def verifierFilter (f : HashFilter) (cryptopp : CryptoPP) (fuel : Nat) (msg : List UInt8)
    (draws draws' : Nat → Nat) : Except Stop (List UInt8) := do
  let data_hash := f.digest (updateData msg)
  let received ← putDecodedDatumInto cryptopp fuel (ss data_hash) [] draws
  putDecodedDatumInto cryptopp fuel msg received draws'

/-- Both paths feed the same bytes to the hash. -/
def FedAlike (cryptopp : CryptoPP) (msg : List UInt8) : Prop :=
  ∀ f : HashFilter, f.Documented → ∃ fuel, ∀ draws draws', ∃ received,
    verifierFilter f cryptopp fuel msg draws draws' = .ok received ∧
      received.drop 32 = updateData msg

/-- `verify success`, whatever the hash is. -/
def Verified (cryptopp : CryptoPP) (msg : List UInt8) : Prop :=
  ∀ f : HashFilter, f.Documented → ∃ fuel, ∀ draws draws', ∃ received,
    verifierFilter f cryptopp fuel msg draws draws' = .ok received ∧ f.lastResult received = true

/-- Quoted texts, some with an `r` right before them, and what they deliver: without a
space in what follows, the count is read from the quote on and is 0. -/
inductive Quotes : List UInt8 → List UInt8 → Prop where
  | nil : Quotes [] []
  | once {c p out : List UInt8} (plain : 34 ∉ c) (h : Quotes p out) :
      Quotes (34 :: (c ++ 34 :: p)) (c ++ out)
  | none {c p out : List UInt8} (plain : 34 ∉ c) (h : Quotes p out) :
      Quotes (114 :: 34 :: (c ++ 34 :: p)) out

/-- A text without a space: quoted texts, and an `r` with a count of at least two and
digits for what is repeated, which together deliver the text. -/
def SelfCopying (msg : List UInt8) : Prop :=
  32 ∉ msg ∧ ∃ p out s, Quotes p out ∧ msg = p ++ 114 :: s ∧ 2 ≤ atoi s ∧
    msg = out ++ repeated (Hex.decode s) (atoi s)

variable {cryptopp : CryptoPP}

/-! ## What the filter receives -/

@[simp] theorem updateData_eq (msg : List UInt8) : updateData msg = msg := by simp [updateData]

theorem delivers_encode (hc : cryptopp.Documented) (s : List UInt8) :
    Delivers cryptopp (Hex.encode s) s := by
  by_cases hs : Hex.encode s = []
  · have hlen := congrArg List.length hs
    rw [Hex.length_encode, List.length_nil] at hlen
    rw [hs, List.length_eq_zero_iff.mp (show s.length = 0 by omega)]
    exact delivers_nil.mpr rfl
  · have hdigits := Hex.isDigit_encode s
    have htoken := token_bare hc hdigits hs boundary_nil
    rw [List.append_nil, Hex.decode_encode] at htoken
    obtain ⟨c, t, hct⟩ := List.exists_cons_of_ne_nil hs
    have hstarts : Starts c := starts_of_isDigit (hdigits c (by rw [hct]; exact List.mem_cons_self))
    have hscan := scan_plain (k := 0) ⟨c, t, hct, hstarts⟩ htoken
    refine (delivers_item hs hscan).mpr ⟨by decide, [], delivers_nil.mpr rfl, ?_⟩
    rw [repeated_one, List.append_nil]

/-- The digest, and what the message delivers. -/
theorem verifierFilter_ok (hc : cryptopp.Documented) (f : HashFilter) {msg received : List UInt8}
    {fuel : Nat} {draws draws' : Nat → Nat}
    (h : verifierFilter f cryptopp fuel msg draws draws' = .ok received) :
    ∃ out, deliver cryptopp fuel msg = .ok out ∧ received = f.digest msg ++ out := by
  simp only [verifierFilter, updateData_eq, putDecodedDatumInto_eq] at h
  cases hd : deliver cryptopp fuel (ss (f.digest msg)) with
  | error e =>
    rw [hd] at h
    cases h
  | ok d =>
    have heq := (delivers_iff.mpr ⟨fuel, hd⟩).unique (delivers_encode hc (f.digest msg))
    subst heq
    rw [hd] at h
    cases hm : deliver cryptopp fuel msg with
    | error e =>
      rw [hm] at h
      cases h
    | ok out =>
      rw [hm] at h
      exact ⟨out, rfl, (Except.ok.inj h).symm⟩

theorem verifierFilter_of_delivers (hc : cryptopp.Documented) (f : HashFilter)
    {msg out : List UInt8} (h : Delivers cryptopp msg out) :
    ∃ fuel, ∀ draws draws',
      verifierFilter f cryptopp fuel msg draws draws' = .ok (f.digest msg ++ out) := by
  obtain ⟨fuel, hm⟩ := delivers_iff.mp h
  obtain ⟨fuel', hd⟩ := delivers_iff.mp (delivers_encode hc (f.digest msg))
  refine ⟨max fuel fuel', fun draws draws' => ?_⟩
  have hd' : deliver cryptopp (max fuel fuel') (ss (f.digest msg)) = .ok (f.digest msg) :=
    deliver_le (Nat.le_max_right fuel fuel') hd
  simp only [verifierFilter, updateData_eq, putDecodedDatumInto_eq, hd',
    deliver_le (Nat.le_max_left fuel fuel') hm]
  rfl

/-- A hash that tells one message from all others. -/
def tells (msg : List UInt8) : HashFilter where
  digest s := List.replicate 32 (if s = msg then 0 else 1)
  lastResult received :=
    List.replicate 32 (if received.drop 32 = msg then 0 else 1) = received.take 32

theorem tells_documented (msg : List UInt8) : (tells msg).Documented :=
  ⟨fun s => by simp [tells], fun received _ => by simp [tells]⟩

theorem fedAlike_iff (hc : cryptopp.Documented) (msg : List UInt8) :
    FedAlike cryptopp msg ↔ Delivers cryptopp msg msg := by
  constructor
  · intro h
    obtain ⟨fuel, hfuel⟩ := h (tells msg) (tells_documented msg)
    obtain ⟨received, hok, hdrop⟩ := hfuel id id
    obtain ⟨out, hout, rfl⟩ := verifierFilter_ok hc _ hok
    rw [List.drop_left' ((tells_documented msg).1 msg), updateData_eq] at hdrop
    rw [hdrop] at hout
    exact delivers_iff.mpr ⟨fuel, hout⟩
  · intro h f hf
    obtain ⟨fuel, hfuel⟩ := verifierFilter_of_delivers hc f h
    refine ⟨fuel, fun draws draws' => ⟨_, hfuel draws draws', ?_⟩⟩
    rw [List.drop_left' (hf.1 msg), updateData_eq]

theorem verified_iff (hc : cryptopp.Documented) (msg : List UInt8) :
    Verified cryptopp msg ↔ Delivers cryptopp msg msg := by
  constructor
  · intro h
    obtain ⟨fuel, hfuel⟩ := h (tells msg) (tells_documented msg)
    obtain ⟨received, hok, hlast⟩ := hfuel id id
    obtain ⟨out, hout, rfl⟩ := verifierFilter_ok hc _ hok
    have hlen := (tells_documented msg).1 msg
    rw [(tells_documented msg).2 _ (by rw [List.length_append, hlen]; exact Nat.le_add_right _ _),
      List.drop_left' hlen, List.take_left' hlen] at hlast
    have heq : out = msg := by
      by_contra hne
      simp [tells, hne] at hlast
    rw [heq] at hout
    exact delivers_iff.mpr ⟨fuel, hout⟩
  · intro h f hf
    obtain ⟨fuel, hfuel⟩ := verifierFilter_of_delivers hc f h
    refine ⟨fuel, fun draws draws' => ⟨_, hfuel draws draws', ?_⟩⟩
    have hlen := hf.1 msg
    rw [hf.2 _ (by rw [List.length_append, hlen]; exact Nat.le_add_right _ _),
      List.drop_left' hlen, List.take_left' hlen]

/-! ## Copies of a text -/

/-- What comes before a character is at least as long as a text without it. -/
theorem append_of_append_cons {α : Type} {a b w r : List α} {c : α} (hc : c ∉ w)
    (h : a ++ c :: b = w ++ r) : ∃ w', a = w ++ w' ∧ r = w' ++ c :: b := by
  rcases List.append_eq_append_iff.mp h with ⟨w', hw, hr⟩ | ⟨w', ha, hr⟩
  · cases w' with
    | nil => exact ⟨[], by simpa using hw.symm, by simpa using hr.symm⟩
    | cons d w' =>
      have hd : c = d := (List.cons.inj hr).1
      subst hd
      exact absurd (by simp [hw]) hc
  · exact ⟨w', ha, hr⟩

/-- A piece of the copies of a text that is as long as the text has all its characters. -/
theorem mem_of_copies {α : Type} {x a t b : List α} {n : Nat} (hlen : x.length ≤ t.length)
    (h : (List.replicate n x).flatten = a ++ (t ++ b)) : ∀ c ∈ x, c ∈ t := by
  induction n generalizing a with
  | zero =>
    have hsum := congrArg List.length h
    simp only [List.replicate_zero, List.flatten_nil, List.length_nil, List.length_append] at hsum
    obtain rfl : x = [] := List.length_eq_zero_iff.mp (by omega)
    exact fun c hc => by cases hc
  | succ n ih =>
    rw [List.replicate_succ, List.flatten_cons] at h
    rcases List.append_eq_append_iff.mp h with ⟨a', rfl, h'⟩ | ⟨x', rfl, h'⟩
    · exact ih h'
    · -- the piece begins in the first copy
      rw [List.length_append] at hlen
      intro c hc
      have hc' : c ∈ x' ++ a := by simpa [or_comm] using hc
      cases n with
      | zero =>
        rw [List.replicate_zero, List.flatten_nil, List.append_nil] at h'
        have hsum := congrArg List.length h'
        rw [List.length_append] at hsum
        obtain rfl : b = [] := List.length_eq_zero_iff.mp (by omega)
        obtain rfl : a = [] := List.length_eq_zero_iff.mp (by omega)
        simpa [← h'] using hc
      | succ n =>
        have hpre : x' ++ a <+: t := by
          refine List.prefix_of_prefix_length_le ?_ (List.prefix_append t b)
            (by rw [List.length_append]; omega)
          rw [h', List.replicate_succ, List.flatten_cons, List.append_assoc, ← List.append_assoc]
          exact List.prefix_append _ _
        exact hpre.subset hc'

/-! ## A prefix without a space -/

/-- No digits, no count. -/
theorem atoi_eq_zero {c : UInt8} (t : List UInt8) (hspace : isSpace c = false)
    (hminus : c ≠ 45) (hplus : c ≠ 43) (hdec : isDecDigit c = false) : atoi (c :: t) = 0 := by
  have hskip : (c :: t).dropWhile isSpace = c :: t := by simp [hspace]
  have hrun : (c :: t).takeWhile isDecDigit = [] := by simp [hdec]
  simp only [atoi, hskip, takeSign_of_ne hminus hplus, hrun]
  rfl

/-- The text behind a prefix that counts to two or more is a bare token. -/
theorem head_of_two_le {s : List UInt8} (h : 2 ≤ atoi s) :
    s.head? ≠ some 34 ∧ s.head? ≠ some 119 ∧ ∀ t, s ≠ 48 :: 120 :: t := by
  refine ⟨fun hhead => ?_, fun hhead => ?_, ?_⟩
  · obtain ⟨t, rfl⟩ := List.head?_eq_some_iff.mp hhead
    rw [atoi_eq_zero t rfl (by decide) (by decide) rfl] at h
    omega
  · obtain ⟨t, rfl⟩ := List.head?_eq_some_iff.mp hhead
    rw [atoi_eq_zero t rfl (by decide) (by decide) rfl] at h
    omega
  · rintro t rfl
    have hzero : atoi ([48] ++ 120 :: t) = 0 :=
      atoi_digits (List.all_eq_true.mp rfl) (by simp) (by simp [isDecDigit])
    rw [List.singleton_append] at hzero
    omega

theorem scan_unspaced {s bytes rest : List UInt8} (hsp : 32 ∉ s) (hw : s.head? ≠ some 119)
    (htoken : token cryptopp s = .ok (bytes, rest)) :
    scan cryptopp (114 :: s) = .ok (.item bytes (atoi s) rest) := by
  have hskip : skipSpaces (114 :: s) = 114 :: s := skipSpaces_append (by decide) 0 s
  refine scan_of_token (by rw [hskip]; simp) ?_ hw htoken
  rw [hskip, takeRepeat_unspaced hsp]

theorem delivers_unspaced (hc : cryptopp.Documented) {s bytes : List UInt8} (hsp : 32 ∉ s)
    (h : 2 ≤ atoi s) :
    Delivers cryptopp (114 :: s) bytes ↔ bytes = repeated (Hex.decode s) (atoi s) := by
  obtain ⟨hquote, hword, hprefix⟩ := head_of_two_le h
  have htoken : token cryptopp s = .ok (Hex.decode s, []) := by
    rw [← List.append_nil s] at hquote
    have htoken : token cryptopp (s ++ []) = .ok (cryptopp.hexDecoder s, []) :=
      token_third hsp boundary_nil hquote hprefix
    rwa [List.append_nil, hc s] at htoken
  rw [delivers_item (by simp) (scan_unspaced hsp hword htoken)]
  simp only [delivers_nil, exists_eq_left, List.append_nil]
  exact and_iff_right (by omega)

/-- By induction on the quoted texts. -/
theorem Quotes.delivers {p out t : List UInt8} (hq : Quotes p out) (hsp : 32 ∉ p ++ t)
    {bytes : List UInt8} :
    Delivers cryptopp (p ++ t) bytes ↔
      ∃ out', Delivers cryptopp t out' ∧ bytes = out ++ out' := by
  induction hq generalizing bytes with
  | nil => simp
  | @once c p out plain _ ih =>
    have htext : 34 :: (c ++ 34 :: p) ++ t = 34 :: (c ++ 34 :: (p ++ t)) := by simp
    have hsp' : 32 ∉ p ++ t := fun h => hsp (by simpa [htext] using Or.inr h)
    rw [htext] at hsp ⊢
    have hscan : scan cryptopp (34 :: (c ++ 34 :: (p ++ t))) = .ok (.item c 1 (p ++ t)) :=
      scan_plain (k := 0) ⟨34, _, rfl, by decide, by decide, by decide⟩
        (token_quoted cryptopp plain (p ++ t))
    simp only [delivers_item (List.cons_ne_nil _ _) hscan, repeated_one, ih hsp']
    constructor
    · rintro ⟨-, out', ⟨out'', ht, rfl⟩, rfl⟩
      exact ⟨out'', ht, by rw [List.append_assoc]⟩
    · rintro ⟨out'', ht, rfl⟩
      exact ⟨by decide, out ++ out'', ⟨out'', ht, rfl⟩, by rw [List.append_assoc]⟩
  | @none c p out plain _ ih =>
    have htext : 114 :: 34 :: (c ++ 34 :: p) ++ t = 114 :: 34 :: (c ++ 34 :: (p ++ t)) := by simp
    have hsp' : 32 ∉ p ++ t := fun h => hsp (by simpa [htext] using Or.inr h)
    rw [htext] at hsp ⊢
    have hzero : atoi (34 :: (c ++ 34 :: (p ++ t))) = 0 :=
      atoi_eq_zero _ rfl (by decide) (by decide) rfl
    have hscan := scan_unspaced (List.not_mem_of_not_mem_cons hsp) (by simp)
      (token_quoted cryptopp plain (p ++ t))
    have hnone : repeated c 0 = [] := by simp [repeated]
    simp only [delivers_item (List.cons_ne_nil _ _) hscan, hzero, hnone, ih hsp']
    constructor
    · rintro ⟨-, out', hout', rfl⟩
      exact hout'
    · exact fun hout' => ⟨le_rfl, bytes, hout', rfl⟩

theorem SelfCopying.delivers (hc : cryptopp.Documented) {msg : List UInt8} (h : SelfCopying msg) :
    Delivers cryptopp msg msg := by
  obtain ⟨hsp, p, out, s, hq, htext, hcount, hbytes⟩ := h
  rw [htext] at hsp
  have hs : 32 ∉ s := fun h => hsp (by simp [h])
  have hlast := (delivers_unspaced hc hs hcount).mpr rfl
  have hall := (hq.delivers hsp).mpr ⟨_, hlast, rfl⟩
  rwa [← htext, ← hbytes] at hall

/-! ## Texts that deliver themselves -/

/-- As `SelfCopying`, behind bytes that are still to be delivered. -/
def CopiesBehind (z r : List UInt8) : Prop :=
  32 ∉ z ++ r ∧ ∃ p out s, Quotes p out ∧ r = p ++ 114 :: s ∧ 2 ≤ atoi s ∧
    z ++ r = out ++ repeated (Hex.decode s) (atoi s)

theorem not_mem_repeated {x : List UInt8} {c : UInt8} (h : c ∉ x) (n : Int) : c ∉ repeated x n := by
  intro hc
  obtain ⟨l, hl, hcl⟩ := List.mem_flatten.mp hc
  rw [List.eq_of_mem_replicate hl] at hcl
  exact h hcl

theorem mem_of_boundary {s : List UInt8} (hb : Boundary s) (hs : s ≠ []) : 32 ∈ s := by
  obtain ⟨c, t, rfl⟩ := List.exists_cons_of_ne_nil hs
  rw [hb c rfl]
  exact List.mem_cons_self

theorem spaces_eq_nil {k : Nat} {s : List UInt8} (h : 32 ∉ spaces k ++ s) : k = 0 := by
  cases k with
  | zero => rfl
  | succ k => simp [spaces, List.replicate_succ] at h

theorem scan_suffix {r s : List UInt8} {n : Int} (hr : ∃ c ∈ r, c ≠ 32)
    (h : takeRepeat (skipSpaces r) = .ok (n, s)) : s <:+ r := by
  obtain ⟨k, c, u, -, hk, hskip⟩ := skipSpaces_eq hr
  rw [hskip] at h
  refine List.IsSuffix.trans ?_ ⟨spaces k, hk.symm⟩
  rcases takeRepeat_cases h with ⟨-, -, rfl⟩ | ⟨t, ht, -, ⟨d, rfl, -⟩ | ⟨-, rfl⟩⟩
  · exact List.suffix_refl _
  · exact ⟨114 :: (d ++ [32]), by rw [ht]; simp⟩
  · exact ⟨[114], by rw [ht]; rfl⟩

/-- What may come before the token of a turn, and its count: spaces, or a prefix with its
space, or an `r` in a text without a space. -/
def Front (front s : List UInt8) (n : Int) : Prop :=
  (n = 1 ∧ (∃ k, front = spaces k) ∧ ∃ c ∈ s.head?, c ≠ 32) ∨ 32 ∈ front ∨
    ∃ k, front = spaces k ++ [114] ∧ 32 ∉ s ∧ n = atoi s

theorem scan_front {r x rest : List UInt8} {n : Int} (hr : ∃ c ∈ r, c ≠ 32)
    (h : scan cryptopp r = .ok (.item x n rest)) :
    ∃ front s, r = front ++ s ∧ token cryptopp s = .ok (x, rest) ∧ Front front s n := by
  obtain ⟨s, hrepeat, htoken⟩ := scan_item h
  obtain ⟨k, c, u, hc, rfl, hskip⟩ := skipSpaces_eq hr
  rw [hskip] at hrepeat
  rcases takeRepeat_cases hrepeat with ⟨-, hn, rfl⟩ | ⟨t, ht, hn, ⟨d, rfl, -⟩ | ⟨hsp, rfl⟩⟩
  · exact ⟨spaces k, _, rfl, htoken, Or.inl ⟨hn, ⟨k, rfl⟩, c, rfl, hc⟩⟩
  · exact ⟨spaces k ++ 114 :: (d ++ [32]), s, by rw [ht]; simp, htoken, Or.inr (Or.inl (by simp))⟩
  · exact ⟨spaces k ++ [114], s, by rw [ht]; simp, htoken, Or.inr (Or.inr ⟨k, rfl, hsp, hn⟩)⟩

/-- **A quoted text** has a quote before its content, so the copies of the content end
before it, and the text is still behind. -/
theorem copies_of_quoted {z front x rest out' : List UInt8} {n : Int} (plain : 34 ∉ x)
    (hfront : Front front (34 :: (x ++ 34 :: rest)) n)
    (heq : z ++ (front ++ 34 :: (x ++ 34 :: rest)) = repeated x n ++ out')
    (ih : ∀ z', out' = z' ++ rest → z' ++ rest = [] ∨ CopiesBehind z' rest) :
    CopiesBehind z (front ++ 34 :: (x ++ 34 :: rest)) := by
  rw [← List.append_assoc] at heq
  obtain ⟨w, hw, hout⟩ := append_of_append_cons (not_mem_repeated plain n) heq
  rw [List.append_assoc] at heq
  have hout' : out' = (w ++ 34 :: (x ++ [34])) ++ rest := by simp [hout]
  rcases ih _ hout' with hnil | ⟨hsp, p, out, s, hq, rfl, hcount, hbytes⟩
  · simp at hnil
  · rw [← hout'] at hsp hbytes
    have hx : 32 ∉ x := fun h => hsp (by simp [hout, h])
    have hall : 32 ∉ z ++ (front ++ 34 :: (x ++ 34 :: (p ++ 114 :: s))) := by
      rw [heq, List.mem_append, not_or]
      exact ⟨not_mem_repeated hx n, hsp⟩
    have hfree : 32 ∉ front := fun h => hall (by simp [h])
    rcases hfront with ⟨rfl, ⟨k, rfl⟩, -⟩ | hmem | ⟨k, rfl, -, hn⟩
    · obtain rfl : k = 0 := spaces_eq_nil (s := []) (by rwa [List.append_nil])
      refine ⟨hall, 34 :: (x ++ 34 :: p), x ++ out, s, .once plain hq, by simp [spaces], hcount, ?_⟩
      rw [heq, repeated_one, hbytes, List.append_assoc]
    · exact absurd hmem hfree
    · obtain rfl := spaces_eq_nil hfree
      rw [atoi_eq_zero _ rfl (by decide) (by decide) rfl] at hn
      refine ⟨hall, 114 :: 34 :: (x ++ 34 :: p), out, s, .none plain hq, by simp [spaces], hcount,
        ?_⟩
      rw [heq, hn, ← hbytes]
      simp [repeated]

theorem decode_two_more_length (digits : List UInt8) {rest : List UInt8} (hb : Boundary rest) :
    2 * (Hex.decode (digits ++ rest.take 2)).length ≤ digits.length + 1 := by
  have hmore : ((rest.take 2).filterMap Hex.digit).length ≤ 1 := by
    match rest, hb with
    | [], _ => simp
    | [c], _ => exact List.length_filterMap_le _ _
    | c :: d :: rest, hb =>
      have hc : Hex.digit c = none := by rw [hb c rfl]; rfl
      have hle := List.length_filterMap_le Hex.digit [d]
      simpa [hc] using hle
  have hdigits := List.length_filterMap_le Hex.digit digits
  rw [Hex.decode_length, List.filterMap_append, List.length_append]
  omega

/-- A token that is no quoted text delivers at most half of its characters. -/
theorem length_le_half (hc : cryptopp.Documented) {t x rest : List UInt8} (hb : Boundary rest)
    (hx : x = cryptopp.hexDecoder t ∨
      ∃ digits, t = 48 :: 120 :: digits ∧ x = cryptopp.hexDecoder (digits ++ rest.take 2)) :
    2 * x.length ≤ t.length := by
  rcases hx with rfl | ⟨digits, rfl, rfl⟩
  · have hle := List.length_filterMap_le Hex.digit t
    rw [hc t, Hex.decode_length]
    omega
  · have hle := decode_two_more_length digits hb
    rw [hc, List.length_cons, List.length_cons]
    omega

/-- What is left behind such a token begins with a space, so the copies reach its end. -/
theorem copies_reach {y t rest w out' : List UInt8} (hb : Boundary rest)
    (heq : y ++ (t ++ rest) = w ++ out')
    (ih : ∀ z', out' = z' ++ rest → z' ++ rest = [] ∨ CopiesBehind z' rest) :
    ∃ w', w = y ++ (t ++ w') := by
  rw [← List.append_assoc] at heq
  rcases List.append_eq_append_iff.mp heq with ⟨w', rfl, -⟩ | ⟨z', hz, hout⟩
  · exact ⟨w', List.append_assoc _ _ _⟩
  · rcases ih z' hout with hboth | ⟨hsp, p, out, s, -, rfl, -⟩
    · rw [(List.append_eq_nil_iff.mp hboth).1, List.append_nil] at hz
      exact ⟨[], by rw [← hz, List.append_nil]⟩
    · exact absurd (List.mem_append_right z' (mem_of_boundary hb (by simp))) hsp

/-- **Another token** takes copies to reach the end of the text, and they have no space,
as the token has none. -/
theorem copies_of_token (hc : cryptopp.Documented) {z front t x rest out' : List UInt8} {n : Int}
    (ht : 32 ∉ t) (hb : Boundary rest)
    (hx : x = cryptopp.hexDecoder t ∨
      ∃ digits, t = 48 :: 120 :: digits ∧ x = cryptopp.hexDecoder (digits ++ rest.take 2))
    (hfront : Front front (t ++ rest) n)
    (heq : z ++ (front ++ (t ++ rest)) = repeated x n ++ out')
    (hnil : rest = [] → out' = [])
    (ih : ∀ z', out' = z' ++ rest → z' ++ rest = [] ∨ CopiesBehind z' rest) :
    CopiesBehind z (front ++ (t ++ rest)) := by
  have hhalf := length_le_half hc hb hx
  obtain ⟨w, hreach⟩ := copies_reach hb (by rw [List.append_assoc, heq]) ih
  have hmem := mem_of_copies (by omega) hreach
  have hcopies : 32 ∉ repeated x n := not_mem_repeated (fun h => ht (hmem _ h)) n
  have hlen := congrArg List.length hreach
  rw [length_repeated] at hlen
  simp only [List.length_append] at hlen
  rcases hfront with ⟨rfl, -, c, hc, hne⟩ | hspace | ⟨k, rfl, hsp, hn⟩
  · -- without a count there is nothing to catch up with
    obtain rfl : t = [] := List.length_eq_zero_iff.mp (by simp at hlen; omega)
    exact absurd (hb c hc) hne
  · exact absurd (by rw [hreach]; simp [hspace]) hcopies
  · obtain rfl : rest = [] := by
      by_contra hne
      exact hsp (List.mem_append_right t (mem_of_boundary hb hne))
    rw [List.append_nil] at hn heq ⊢
    rw [hnil rfl, List.append_nil] at heq
    have hfree : 32 ∉ spaces k ++ [114] := fun h =>
      hcopies (by rw [hreach]; exact List.mem_append_left _ (List.mem_append_right z h))
    obtain rfl : k = 0 := spaces_eq_nil hfree
    have htwo : 2 ≤ n := by
      by_contra hlt
      have hone : n.toNat ≤ 1 := by omega
      have hle := Nat.mul_le_mul_right x.length hone
      rw [List.length_append, List.length_singleton] at hlen
      omega
    subst hn
    rcases hx with rfl | ⟨digits, rfl, -⟩
    · rw [hc t] at heq hcopies
      exact ⟨by rwa [heq], [], [], t, .nil, rfl, htwo, heq⟩
    · exact absurd rfl ((head_of_two_le htwo).2.2 digits)

/-- By induction on the turns: a text that delivers itself, with bytes before it. -/
theorem deliver_self (hc : cryptopp.Documented) {fuel : Nat} {z r : List UInt8}
    (h : deliver cryptopp fuel r = .ok (z ++ r)) : z ++ r = [] ∨ CopiesBehind z r := by
  induction fuel generalizing z r with
  | zero =>
    rw [deliver] at h
    split_ifs at h
    exact Or.inl (Except.ok.inj h).symm
  | succ fuel ih =>
    by_cases hr : r = []
    · rw [deliver, if_pos hr] at h
      exact Or.inl (Except.ok.inj h).symm
    · by_cases hall : ∀ c ∈ r, c = 32
      · obtain ⟨-, out', hout, heq⟩ := (deliver_item hr (scan_spaces hr hall)).mp h
        rw [repeated_one, hc [], show Hex.decode [] = [] from rfl, List.nil_append] at heq
        rw [← heq] at hout
        exact ih hout
      · push Not at hall
        cases hscan : scan cryptopp r with
        | error e =>
          rw [deliver, if_neg hr, hscan] at h
          cases h
        | ok v =>
          cases v with
          | final bytes =>
            rw [deliver, if_neg hr, hscan] at h
            obtain rfl : bytes = z ++ r := Except.ok.inj h
            rcases scan_cases hscan with ⟨-, hv⟩ | ⟨n, s, hrepeat, ⟨hword, hv⟩ | ⟨x, rest, -, hv⟩⟩
            · exact Or.inl (Scan.final.inj hv)
            · -- a word section has more plain characters than it delivers
              have hlt := plainCount_wordSection hword
              have hle := plainCount_le_of_suffix (scan_suffix hall hrepeat)
              have happend := plainCount_append z r
              rw [Scan.final.inj hv] at happend
              omega
            · cases hv
          | item x n rest =>
            right
            obtain ⟨-, out', hout, heq⟩ := (deliver_item hr hscan).mp h
            obtain ⟨front, s, rfl, htoken, hfront⟩ := scan_front hall hscan
            have ih' : ∀ z', out' = z' ++ rest → z' ++ rest = [] ∨ CopiesBehind z' rest := by
              rintro z' rfl
              exact ih hout
            rcases token_cases htoken with ⟨rfl, plain⟩ | ⟨t, rfl, ht, hb, -, hx⟩
            · exact copies_of_quoted plain hfront heq ih'
            · refine copies_of_token hc ht hb hx hfront heq ?_ ih'
              rintro rfl
              exact delivers_nil.mp (delivers_iff.mpr ⟨fuel, hout⟩)

/-- **The texts that deliver themselves.** -/
theorem delivers_self_iff (hc : cryptopp.Documented) (msg : List UInt8) :
    Delivers cryptopp msg msg ↔ msg = [] ∨ SelfCopying msg := by
  constructor
  · intro h
    obtain ⟨fuel, hd⟩ := delivers_iff.mp h
    exact deliver_self (z := []) hc hd
  · rintro (rfl | h)
    · exact delivers_nil.mpr rfl
    · exact h.delivers hc

/-- **The two paths.** -/
theorem paths_agree_iff (hc : cryptopp.Documented) (msg : List UInt8) :
    (FedAlike cryptopp msg ↔ msg = [] ∨ SelfCopying msg) ∧
      (Verified cryptopp msg ↔ msg = [] ∨ SelfCopying msg) := by
  rw [fedAlike_iff hc, verified_iff hc, and_self]
  exact delivers_self_iff hc msg

theorem paths_agree_empty : FedAlike ⟨Hex.decode⟩ [] ∧ Verified ⟨Hex.decode⟩ [] := by
  have h := @paths_agree_iff ⟨Hex.decode⟩ (fun _ => rfl) []
  exact ⟨h.1.mpr (Or.inl rfl), h.2.mpr (Or.inl rfl)⟩

/-- `transfer(address,uint256)`: the second path feeds the five bytes of its hex digits. -/
theorem transfer_paths_differ :
    ¬FedAlike ⟨Hex.decode⟩ [116, 114, 97, 110, 115, 102, 101, 114, 40, 97, 100, 100, 114, 101, 115,
        115, 44, 117, 105, 110, 116, 50, 53, 54, 41] ∧
      ¬Verified ⟨Hex.decode⟩ [116, 114, 97, 110, 115, 102, 101, 114, 40, 97, 100, 100, 114, 101,
        115, 115, 44, 117, 105, 110, 116, 50, 53, 54, 41] := by
  rw [fedAlike_iff fun _ => rfl, verified_iff fun _ => rfl, and_self]
  intro h
  have hout : Delivers ⟨Hex.decode⟩ [116, 114, 97, 110, 115, 102, 101, 114, 40, 97, 100, 100, 114,
      101, 115, 115, 44, 117, 105, 110, 116, 50, 53, 54, 41] [175, 234, 221, 226, 86] :=
    delivers_iff.mpr ⟨1, rfl⟩
  have heq := h.unique hout
  cases heq

end LearnFramework.Eth
