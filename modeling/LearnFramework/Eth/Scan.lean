import LearnFramework.Eth.Denotation

/-!
# What a text delivers

The control flow of the parser depends on the text alone: `scan` is what one turn
makes of it, and `deliver` the bytes of all turns. The queue, the target and the
draws of the transfers only decide when bytes move, so `PutDecodedDatumInto` appends
exactly these bytes (`putDecodedDatumInto_eq`), and `Delivers` says which they are
with fuel enough.
-/

namespace LearnFramework.Eth

/-- What a turn makes of a text. -/
inductive Scan where
  /-- `goto end`, with the bytes of a word section -/
  | final (bytes : List UInt8)
  | item (bytes : List UInt8) (times : Int) (rest : List UInt8)
  deriving DecidableEq, Repr

def scan (cryptopp : CryptoPP) (s1 : List UInt8) : Except Stop Scan := do
  let s1 := skipSpaces s1
  if s1 = [] then .ok (.final [])
  else
    let (times, s1) ← takeRepeat s1
    if 6 ≤ s1.length ∧ (s1.take 6 = word32 ∨ s1.take 6 = word64) then
      .ok (.final (wordSection s1))
    else
      let (s2, s1) ← token cryptopp s1
      .ok (.item s2 times s1)

/-- The bytes of `while (repeat--)`. -/
def repeated (bytes : List UInt8) (times : Int) : List UInt8 :=
  (List.replicate times.toNat bytes).flatten

/-- The bytes that all turns deliver. -/
def deliver (cryptopp : CryptoPP) : Nat → List UInt8 → Except Stop (List UInt8)
  | 0, s1 => if s1 = [] then .ok [] else .error .outOfFuel
  | fuel + 1, s1 =>
    if s1 = [] then .ok []
    else (scan cryptopp s1).bind fun
      | .final bytes => .ok bytes
      | .item bytes times rest =>
        if times < 0 then .error .signedOverflow
        else (deliver cryptopp fuel rest).map (repeated bytes times ++ ·)

/-- `PutDecodedDatumInto` returns and has put `bytes` into the target, whatever is
drawn. -/
def Delivers (cryptopp : CryptoPP) (s1 bytes : List UInt8) : Prop :=
  ∃ fuel, ∀ target draws,
    putDecodedDatumInto cryptopp fuel s1 target draws = .ok (target ++ bytes)

theorem repeated_nil (times : Int) : repeated [] times = [] := by simp [repeated]

theorem repeated_one (bytes : List UInt8) : repeated bytes 1 = bytes := by simp [repeated]

theorem length_repeated (bytes : List UInt8) (times : Int) :
    (repeated bytes times).length = times.toNat * bytes.length := by simp [repeated]

variable {cryptopp : CryptoPP}

/-! ## The parser runs the scan -/

theorem turn_eq (s1 : List UInt8) (io : Io) :
    turn cryptopp s1 io = (scan cryptopp s1).bind fun
      | .final bytes => .ok (none, { io with q := io.q ++ bytes })
      | .item bytes times rest => (putRepeated bytes times io).map fun io => (some rest, io) := by
  simp only [turn, scan]
  by_cases hnil : skipSpaces s1 = []
  · simp [hnil, Except.bind]
  · simp only [if_neg hnil]
    cases hrepeat : takeRepeat (skipSpaces s1) with
    | error e => rfl
    | ok p =>
      obtain ⟨times, s⟩ := p
      simp only [bind, Except.bind]
      split_ifs with hword
      · rfl
      · cases htoken : token cryptopp s with
        | error e => rfl
        | ok q =>
          obtain ⟨s2, rest⟩ := q
          simp only
          cases putRepeated s2 times io <;> rfl

theorem putRepeated_ok (bytes : List UInt8) {times : Int} (h : ¬times < 0) (io : Io) :
    ∃ io', putRepeated bytes times io = .ok io' ∧
      io'.stream = io.stream ++ repeated bytes times := by
  rw [putRepeated, if_neg h]
  exact repeatPut_ok bytes times.toNat io

/-- The loop stops where the scan stops, and else what is on its way grows by the
bytes that the scan delivers. -/
theorem parseLoop_eq (cryptopp : CryptoPP) (fuel : Nat) (s1 : List UInt8) (io : Io) :
    (∃ e, deliver cryptopp fuel s1 = .error e ∧ parseLoop cryptopp fuel s1 io = .error e) ∨
    ∃ bytes io', deliver cryptopp fuel s1 = .ok bytes ∧
      parseLoop cryptopp fuel s1 io = .ok io' ∧ io'.stream = io.stream ++ bytes := by
  induction fuel generalizing s1 io with
  | zero =>
    by_cases hs : s1 = []
    · exact Or.inr ⟨[], io, by simp [deliver, hs], by simp [parseLoop, hs], by simp⟩
    · exact Or.inl ⟨.outOfFuel, by simp [deliver, hs], by simp [parseLoop, hs]⟩
  | succ fuel ih =>
    by_cases hs : s1 = []
    · exact Or.inr ⟨[], io, by simp [deliver, hs], by simp [parseLoop, hs], by simp⟩
    · simp only [deliver, parseLoop, if_neg hs, turn_eq]
      cases hscan : scan cryptopp s1 with
      | error e => exact Or.inl ⟨e, rfl, rfl⟩
      | ok v =>
        cases v with
        | final bytes => exact Or.inr ⟨bytes, _, rfl, rfl, by simp [Io.stream]⟩
        | item bytes times rest =>
          by_cases hneg : times < 0
          · exact Or.inl ⟨.signedOverflow, by simp [Except.bind, hneg],
              by simp [Except.bind, Except.map, putRepeated, hneg]⟩
          · obtain ⟨io₁, hput, hs₁⟩ := putRepeated_ok bytes hneg io
            simp only [Except.bind, if_neg hneg, hput, Except.map]
            rcases ih rest io₁ with ⟨e, hd, hp⟩ | ⟨out, io₂, hd, hp, hs₂⟩
            · exact Or.inl ⟨e, by rw [hd], hp⟩
            · refine Or.inr ⟨repeated bytes times ++ out, io₂, by rw [hd], hp, ?_⟩
              rw [hs₂, hs₁, List.append_assoc]

/-- **The parser appends what the scan delivers.** -/
theorem putDecodedDatumInto_eq (fuel : Nat) (s1 target : List UInt8) (draws : Nat → Nat) :
    putDecodedDatumInto cryptopp fuel s1 target draws =
      (deliver cryptopp fuel s1).map (target ++ ·) := by
  simp only [putDecodedDatumInto]
  rcases parseLoop_eq cryptopp fuel s1 ⟨[], target, draws, 0⟩ with
    ⟨e, hd, hp⟩ | ⟨bytes, io₁, hd, hp, hs₁⟩
  · rw [hd, hp]
    rfl
  · obtain ⟨io₂, h₂, hs₂, hq⟩ := randomizedTransfer_ok io₁ true
    have htarget : io₂.target = target ++ bytes := by
      have hs := hs₂.trans hs₁
      rw [Io.stream, hq rfl] at hs
      simpa [Io.stream] using hs
    simp only [hd, hp, h₂, bind, Except.bind, Except.map, htarget]

theorem delivers_iff {s1 bytes : List UInt8} :
    Delivers cryptopp s1 bytes ↔ ∃ fuel, deliver cryptopp fuel s1 = .ok bytes := by
  constructor
  · rintro ⟨fuel, h⟩
    refine ⟨fuel, ?_⟩
    have h0 := h [] id
    rw [putDecodedDatumInto_eq] at h0
    cases hd : deliver cryptopp fuel s1 with
    | error e =>
      rw [hd] at h0
      cases h0
    | ok out =>
      rw [hd] at h0
      exact h0
  · rintro ⟨fuel, h⟩
    refine ⟨fuel, fun target draws => ?_⟩
    rw [putDecodedDatumInto_eq, h]
    rfl

/-- More fuel delivers the same, by induction on the turns. -/
theorem deliver_succ {fuel : Nat} {s1 bytes : List UInt8}
    (h : deliver cryptopp fuel s1 = .ok bytes) : deliver cryptopp (fuel + 1) s1 = .ok bytes := by
  induction fuel generalizing s1 bytes with
  | zero =>
    rw [deliver] at h
    split_ifs at h with hs
    rw [deliver, if_pos hs, h]
  | succ fuel ih =>
    rw [deliver] at h ⊢
    split_ifs at h ⊢ with hs
    · exact h
    · cases hscan : scan cryptopp s1 with
      | error e =>
        rw [hscan] at h
        cases h
      | ok v =>
        cases v with
        | final out =>
          rw [hscan] at h
          exact h
        | item out times rest =>
          simp only [hscan, Except.bind] at h ⊢
          split_ifs at h ⊢ with hneg
          cases hrest : deliver cryptopp fuel rest with
          | error e =>
            rw [hrest] at h
            cases h
          | ok out' =>
            rw [hrest] at h
            rw [ih hrest]
            exact h

theorem deliver_le {fuel fuel' : Nat} {s1 bytes : List UInt8} (hle : fuel ≤ fuel')
    (h : deliver cryptopp fuel s1 = .ok bytes) : deliver cryptopp fuel' s1 = .ok bytes := by
  induction hle with
  | refl => exact h
  | step _ ih => exact deliver_succ ih

theorem Delivers.unique {s1 bytes bytes' : List UInt8} (h : Delivers cryptopp s1 bytes)
    (h' : Delivers cryptopp s1 bytes') : bytes = bytes' := by
  obtain ⟨fuel, h⟩ := delivers_iff.mp h
  obtain ⟨fuel', h'⟩ := delivers_iff.mp h'
  have heq := deliver_le (Nat.le_max_left fuel fuel') h
  rw [deliver_le (Nat.le_max_right fuel fuel') h'] at heq
  exact (Except.ok.inj heq).symm

/-! ## One turn of a delivery -/

theorem delivers_nil {bytes : List UInt8} : Delivers cryptopp [] bytes ↔ bytes = [] := by
  rw [delivers_iff]
  constructor
  · rintro ⟨fuel, h⟩
    cases fuel with
    | zero => exact (Except.ok.inj h).symm
    | succ fuel => exact (Except.ok.inj h).symm
  · rintro rfl
    exact ⟨0, rfl⟩

/-- What a text that is not empty delivers: fuel 0 delivers nothing of it. -/
theorem delivers_cons {s1 bytes : List UInt8} (hs : s1 ≠ []) :
    Delivers cryptopp s1 bytes ↔ ∃ fuel, deliver cryptopp (fuel + 1) s1 = .ok bytes := by
  rw [delivers_iff]
  constructor
  · rintro ⟨fuel, h⟩
    cases fuel with
    | zero => simp [deliver, hs] at h
    | succ fuel => exact ⟨fuel, h⟩
  · rintro ⟨fuel, h⟩
    exact ⟨fuel + 1, h⟩

theorem deliver_item {fuel : Nat} {s1 bytes rest out : List UInt8} {times : Int} (hs : s1 ≠ [])
    (h : scan cryptopp s1 = .ok (.item bytes times rest)) :
    deliver cryptopp (fuel + 1) s1 = .ok out ↔
      0 ≤ times ∧ ∃ out', deliver cryptopp fuel rest = .ok out' ∧
        out = repeated bytes times ++ out' := by
  simp only [deliver, if_neg hs, h, Except.bind]
  constructor
  · intro hd
    split_ifs at hd with hneg
    cases hrest : deliver cryptopp fuel rest with
    | error e =>
      rw [hrest] at hd
      cases hd
    | ok out' =>
      rw [hrest] at hd
      exact ⟨Int.not_lt.mp hneg, out', rfl, (Except.ok.inj hd).symm⟩
  · rintro ⟨hpos, out', hrest, rfl⟩
    rw [if_neg (Int.not_lt.mpr hpos), hrest]
    rfl

theorem delivers_item {s1 bytes rest out : List UInt8} {times : Int} (hs : s1 ≠ [])
    (h : scan cryptopp s1 = .ok (.item bytes times rest)) :
    Delivers cryptopp s1 out ↔
      0 ≤ times ∧ ∃ out', Delivers cryptopp rest out' ∧ out = repeated bytes times ++ out' := by
  simp only [delivers_cons hs, deliver_item hs h, delivers_iff]
  constructor
  · rintro ⟨fuel, hpos, out', hrest, rfl⟩
    exact ⟨hpos, out', ⟨fuel, hrest⟩, rfl⟩
  · rintro ⟨hpos, out', ⟨fuel, hrest⟩, rfl⟩
    exact ⟨fuel, hpos, out', hrest, rfl⟩

/-! ## What a turn takes off the text -/

/-- Spaces are skipped up to the first other character. -/
theorem skipSpaces_eq {s1 : List UInt8} (hs : ∃ c ∈ s1, c ≠ 32) :
    ∃ k c t, c ≠ 32 ∧ s1 = spaces k ++ c :: t ∧ skipSpaces s1 = c :: t := by
  suffices h : ∃ k c t, c ≠ 32 ∧ s1 = spaces k ++ c :: t by
    obtain ⟨k, c, t, hc, rfl⟩ := h
    exact ⟨k, c, t, hc, rfl, skipSpaces_append hc k t⟩
  induction s1 with
  | nil => simp at hs
  | cons d s ih =>
    by_cases hd : d = 32
    · subst hd
      obtain ⟨k, c, t, hc, rfl⟩ := ih (by simpa using hs)
      exact ⟨k + 1, c, t, hc, by simp [spaces, List.replicate_succ]⟩
    · exact ⟨0, d, s, hd, rfl⟩

/-- A text is what comes before the next space, and the rest. -/
theorem split_space (s : List UInt8) : ∃ t rest, s = t ++ rest ∧ 32 ∉ t ∧ Boundary rest := by
  by_cases hs : 32 ∈ s
  · obtain ⟨a, b, rfl, ha⟩ := List.eq_append_cons_of_mem hs
    exact ⟨a, 32 :: b, rfl, ha, boundary_space b⟩
  · exact ⟨s, [], by simp, hs, boundary_nil⟩

/-- The count of an `r` prefix goes up to the next space; without one, the text
behind the `r` is read twice. -/
theorem takeRepeat_cases {s rest : List UInt8} {times : Int}
    (h : takeRepeat s = .ok (times, rest)) :
    (s.head? ≠ some 114 ∧ times = 1 ∧ rest = s) ∨
    ∃ t, s = 114 :: t ∧ times = atoi t ∧
      ((∃ d, t = d ++ 32 :: rest ∧ 32 ∉ d) ∨ 32 ∉ t ∧ rest = t) := by
  by_cases hr : s.head? = some 114
  · obtain ⟨t, rfl⟩ := List.head?_eq_some_iff.mp hr
    refine Or.inr ⟨t, rfl, ?_⟩
    by_cases ht : 32 ∈ t
    · obtain ⟨d, b, rfl, hd⟩ := List.eq_append_cons_of_mem ht
      rw [takeRepeat_spaced hd] at h
      cases h
      exact ⟨rfl, Or.inl ⟨d, rfl, hd⟩⟩
    · rw [takeRepeat_unspaced ht] at h
      cases h
      exact ⟨rfl, Or.inr ⟨ht, rfl⟩⟩
  · rw [takeRepeat_none hr] at h
    cases h
    exact Or.inl ⟨hr, rfl, rfl⟩

/-- A token is a quoted text, or what comes before the next space; the `0x` branch
reads two characters on. -/
theorem token_cases {s x rest : List UInt8} (h : token cryptopp s = .ok (x, rest)) :
    (s = 34 :: (x ++ 34 :: rest) ∧ 34 ∉ x) ∨
    ∃ t, s = t ++ rest ∧ 32 ∉ t ∧ Boundary rest ∧ s.head? ≠ some 34 ∧
      (x = cryptopp.hexDecoder t ∨
        ∃ digits, t = 48 :: 120 :: digits ∧ x = cryptopp.hexDecoder (digits ++ rest.take 2)) := by
  by_cases hq : s.head? = some 34
  · obtain ⟨t, rfl⟩ := List.head?_eq_some_iff.mp hq
    by_cases ht : 34 ∈ t
    · obtain ⟨a, b, rfl, ha⟩ := List.eq_append_cons_of_mem ht
      rw [token_quoted cryptopp ha b] at h
      cases h
      exact Or.inl ⟨rfl, ha⟩
    · -- without a closing quote the second `substr` throws
      have hfind : find (34 :: t) 34 1 = none := by simp [find, ht]
      have hs2 : substr (34 :: t) 1 none = .ok t := by simp [substr]
      have hthrow : substr (34 :: t) (t.length + 2) none = .error .outOfRange := by
        rw [substr, if_pos (by simp)]
      simp only [token, List.head?_cons, if_true, hfind, Option.map_none, hs2, hthrow, bind,
        Except.bind] at h
      cases h
  · obtain ⟨t, b, rfl, ht, hb⟩ := split_space s
    by_cases hx : ∃ digits, t = 48 :: 120 :: digits
    · obtain ⟨digits, rfl⟩ := hx
      rw [token_second ht hb] at h
      cases h
      exact Or.inr ⟨_, rfl, ht, hb, hq, Or.inr ⟨digits, rfl, rfl⟩⟩
    · rw [token_third ht hb hq (not_exists.mp hx)] at h
      cases h
      exact Or.inr ⟨t, rfl, ht, hb, hq, Or.inl rfl⟩

theorem length_takeRepeat {s rest : List UInt8} {times : Int}
    (h : takeRepeat s = .ok (times, rest)) :
    rest.length < s.length ∨ s.head? ≠ some 114 ∧ rest = s := by
  rcases takeRepeat_cases h with ⟨hr, -, rfl⟩ | ⟨t, rfl, -, ⟨d, rfl, -⟩ | ⟨-, rfl⟩⟩
  · exact Or.inr ⟨hr, rfl⟩
  · left
    simp only [List.length_cons, List.length_append]
    omega
  · exact Or.inl (Nat.lt_succ_self _)

theorem length_token {s x rest : List UInt8} (h : token cryptopp s = .ok (x, rest)) :
    rest.length < s.length ∨ rest = s ∧ Boundary s := by
  rcases token_cases h with ⟨rfl, -⟩ | ⟨t, rfl, -, hb, -⟩
  · left
    simp only [List.length_cons, List.length_append]
    omega
  · cases t with
    | nil => exact Or.inr ⟨rfl, hb⟩
    | cons c t =>
      left
      simp only [List.length_cons, List.length_append]
      omega

/-- **What a turn makes of a text**, once its spaces and its prefix are off. -/
theorem scan_cases {s1 : List UInt8} {v : Scan} (h : scan cryptopp s1 = .ok v) :
    (skipSpaces s1 = [] ∧ v = .final []) ∨
    ∃ times s, takeRepeat (skipSpaces s1) = .ok (times, s) ∧
      (((s.take 6 = word32 ∨ s.take 6 = word64) ∧ v = .final (wordSection s)) ∨
        ∃ bytes rest, token cryptopp s = .ok (bytes, rest) ∧ v = .item bytes times rest) := by
  simp only [scan] at h
  by_cases hnil : skipSpaces s1 = []
  · rw [if_pos hnil] at h
    exact Or.inl ⟨hnil, (Except.ok.inj h).symm⟩
  · right
    rw [if_neg hnil] at h
    cases hrepeat : takeRepeat (skipSpaces s1) with
    | error e =>
      rw [hrepeat] at h
      cases h
    | ok p =>
      obtain ⟨times, s⟩ := p
      refine ⟨times, s, rfl, ?_⟩
      rw [hrepeat] at h
      simp only [bind, Except.bind] at h
      split_ifs at h with hword
      · exact Or.inl ⟨hword.2, (Except.ok.inj h).symm⟩
      · right
        cases htoken : token cryptopp s with
        | error e =>
          rw [htoken] at h
          cases h
        | ok q =>
          rw [htoken] at h
          exact ⟨q.1, q.2, rfl, (Except.ok.inj h).symm⟩

theorem scan_item {s1 bytes rest : List UInt8} {times : Int}
    (h : scan cryptopp s1 = .ok (.item bytes times rest)) :
    ∃ s, takeRepeat (skipSpaces s1) = .ok (times, s) ∧ token cryptopp s = .ok (bytes, rest) := by
  rcases scan_cases h with ⟨-, hv⟩ | ⟨n, s, hrepeat, ⟨-, hv⟩ | ⟨x, r, htoken, hv⟩⟩
  · cases hv
  · cases hv
  · cases hv
    exact ⟨s, hrepeat, htoken⟩

/-- **A turn that goes on shortens the text**, unless there are only spaces. -/
theorem scan_shortens {s1 bytes rest : List UInt8} {times : Int} (hs : ∃ c ∈ s1, c ≠ 32)
    (h : scan cryptopp s1 = .ok (.item bytes times rest)) : rest.length < s1.length := by
  obtain ⟨s, hrepeat, htoken⟩ := scan_item h
  obtain ⟨k, c, t, hc, rfl, hskip⟩ := skipSpaces_eq hs
  rw [hskip] at hrepeat
  have hlen : (c :: t).length ≤ (spaces k ++ c :: t).length := by
    rw [List.length_append]
    exact Nat.le_add_left _ _
  rcases length_takeRepeat hrepeat with hlt | ⟨-, rfl⟩
  · rcases length_token htoken with hlt' | ⟨rfl, -⟩
    · omega
    · omega
  · rcases length_token htoken with hlt | ⟨-, hb⟩
    · omega
    · exact absurd (hb c rfl) hc

/-- A turn on a text that is no word section. -/
theorem scan_of_token {s1 s bytes rest : List UInt8} {times : Int} (hne : skipSpaces s1 ≠ [])
    (hrepeat : takeRepeat (skipSpaces s1) = .ok (times, s)) (hw : s.head? ≠ some 119)
    (htoken : token cryptopp s = .ok (bytes, rest)) :
    scan cryptopp s1 = .ok (.item bytes times rest) := by
  have hword : ¬(6 ≤ s.length ∧ (s.take 6 = word32 ∨ s.take 6 = word64)) := by
    rintro ⟨-, h | h⟩
    · have hhead := congrArg List.head? h
      rw [List.head?_take, if_neg (by omega)] at hhead
      exact hw hhead
    · have hhead := congrArg List.head? h
      rw [List.head?_take, if_neg (by omega)] at hhead
      exact hw hhead
  simp only [scan, if_neg hne, hrepeat, if_neg hword, htoken, bind, Except.bind]

/-- A turn on spaces and a token without prefix. -/
theorem scan_plain {k : Nat} {s bytes rest : List UInt8} (hs : ∃ c t, s = c :: t ∧ Starts c)
    (htoken : token cryptopp s = .ok (bytes, rest)) :
    scan cryptopp (spaces k ++ s) = .ok (.item bytes 1 rest) := by
  obtain ⟨c, t, rfl, hc⟩ := hs
  have hskip : skipSpaces (spaces k ++ c :: t) = c :: t := skipSpaces_append hc.1 k t
  refine scan_of_token (by rw [hskip]; simp) ?_ (by simpa using hc.2.2) htoken
  rw [hskip, takeRepeat_none (by simpa using hc.2.1)]

/-- A token of no characters, before a space. -/
theorem token_space {s : List UInt8} (hhead : s.head? = some 32) :
    token cryptopp s = .ok (cryptopp.hexDecoder [], s) := by
  have hb : Boundary s := fun c hc => by simpa [hhead, eq_comm] using hc
  exact token_third (s := []) (by simp) hb (by simp [hhead]) (by simp)

/-- A turn on spaces alone takes nothing off. -/
theorem scan_spaces {s1 : List UInt8} (hs : s1 ≠ []) (hall : ∀ c ∈ s1, c = 32) :
    scan cryptopp s1 = .ok (.item (cryptopp.hexDecoder []) 1 s1) := by
  have hskip : skipSpaces s1 = s1 := by
    rw [skipSpaces, if_pos (by simpa using hall)]
  have hhead : s1.head? = some 32 := by
    obtain ⟨c, t, rfl⟩ := List.exists_cons_of_ne_nil hs
    rw [hall c List.mem_cons_self, List.head?_cons]
  refine scan_of_token (s := s1) (by rwa [hskip]) ?_ (by simp [hhead]) (token_space hhead)
  rw [hskip, takeRepeat_none (by simp [hhead])]

end LearnFramework.Eth
