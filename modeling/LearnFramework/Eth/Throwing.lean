import LearnFramework.Eth.Termination

/-!
# Texts on which the parser throws

`substr` throws in one place, at a quote that is not closed (`scan_error_iff`). The
exception leaves `PutDecodedDatumInto` before the last transfer, and `q` goes with what is
in it. So the target has the bytes of the tokens in front of the quote, in order and
whatever is drawn, but for the last 4096 at most (`throws_iff`).
-/

namespace LearnFramework.Eth

open Relation

variable {cryptopp : CryptoPP}

/-- The outer loop, with what it has done when an exception leaves it: a turn that throws
has put nothing into `q` yet. -/
def parseUntil (cryptopp : CryptoPP) : Nat → List UInt8 → Io → Io × Option Stop
  | 0, s1, io => (io, if s1 = [] then none else some .outOfFuel)
  | fuel + 1, s1, io =>
    if s1 = [] then (io, none)
    else match turn cryptopp s1 io with
      | .error e => (io, some e)
      | .ok (none, io) => (io, none)
      | .ok (some s1, io) => parseUntil cryptopp fuel s1 io

/-- The turn meets a quote that is not closed. -/
def OpenQuote (s1 : List UInt8) : Prop :=
  ∃ times t, takeRepeat (skipSpaces s1) = .ok (times, 34 :: t) ∧ 34 ∉ t

/-- Turns that go on: the bytes of their tokens, and the text that they leave. -/
inductive Reads (cryptopp : CryptoPP) : List UInt8 → List UInt8 → List UInt8 → Prop
  | refl (s : List UInt8) : Reads cryptopp s [] s
  | head {s1 bytes rest out s : List UInt8} {times : Int} (hne : s1 ≠ [])
      (hscan : scan cryptopp s1 = .ok (.item bytes times rest)) (hpos : 0 ≤ times)
      (h : Reads cryptopp rest out s) : Reads cryptopp s1 (repeated bytes times ++ out) s

/-! ## The quote -/

theorem takeRepeat_ok (s : List UInt8) : ∃ times rest, takeRepeat s = .ok (times, rest) := by
  by_cases hr : s.head? = some 114
  · obtain ⟨t, rfl⟩ := List.head?_eq_some_iff.mp hr
    by_cases ht : 32 ∈ t
    · obtain ⟨d, b, rfl, hd⟩ := List.eq_append_cons_of_mem ht
      exact ⟨_, _, takeRepeat_spaced hd b⟩
    · exact ⟨_, _, takeRepeat_unspaced ht⟩
  · exact ⟨_, _, takeRepeat_none hr⟩

/-- Without a closing quote the second `substr` throws. -/
theorem token_openQuote {t : List UInt8} (ht : 34 ∉ t) :
    token cryptopp (34 :: t) = .error .outOfRange := by
  have hfind : find (34 :: t) 34 1 = none := by simp [find, ht]
  have hs2 : substr (34 :: t) 1 none = .ok t := by simp [substr]
  have hthrow : substr (34 :: t) (t.length + 2) none = .error .outOfRange := by
    rw [substr, if_pos (by simp)]
  simp only [token, List.head?_cons, if_true, hfind, Option.map_none, hs2, hthrow, bind,
    Except.bind]

/-- Every other token is one. -/
theorem token_ok (cryptopp : CryptoPP) {s : List UInt8} (h : ∀ t, s = 34 :: t → 34 ∈ t) :
    ∃ x rest, token cryptopp s = .ok (x, rest) := by
  by_cases hq : s.head? = some 34
  · obtain ⟨t, rfl⟩ := List.head?_eq_some_iff.mp hq
    obtain ⟨a, b, rfl, ha⟩ := List.eq_append_cons_of_mem (h t rfl)
    exact ⟨_, _, token_quoted cryptopp ha b⟩
  · obtain ⟨t, b, rfl, ht, hb⟩ := split_space s
    by_cases hx : ∃ digits, t = 48 :: 120 :: digits
    · obtain ⟨digits, rfl⟩ := hx
      exact ⟨_, _, token_second ht hb⟩
    · exact ⟨_, _, token_third ht hb hq (not_exists.mp hx)⟩

/-- **A turn throws** exactly at a quote that is not closed. -/
theorem scan_error_iff (cryptopp : CryptoPP) {s1 : List UInt8} :
    scan cryptopp s1 = .error .outOfRange ↔ OpenQuote s1 := by
  constructor
  · intro h
    obtain ⟨times, s, hrepeat⟩ := takeRepeat_ok (skipSpaces s1)
    by_contra hno
    have hclosed : ∀ t, s = 34 :: t → 34 ∈ t := by
      rintro t rfl
      by_contra ht
      exact hno ⟨times, t, hrepeat, ht⟩
    obtain ⟨x, rest, htoken⟩ := token_ok cryptopp hclosed
    simp only [scan, hrepeat, htoken, bind, Except.bind] at h
    split_ifs at h
  · rintro ⟨times, t, hrepeat, ht⟩
    have hnil : skipSpaces s1 ≠ [] := by
      intro hnil
      rw [hnil] at hrepeat
      cases hrepeat
    have hword : ¬(6 ≤ (34 :: t).length ∧
        ((34 :: t).take 6 = word32 ∨ (34 :: t).take 6 = word64)) := by
      rintro ⟨-, h | h⟩
      · cases h
      · cases h
    simp only [scan, if_neg hnil, hrepeat, if_neg hword, token_openQuote ht, bind, Except.bind]

theorem OpenQuote.ne_nil {s : List UInt8} (h : OpenQuote s) : s ≠ [] := by
  rintro rfl
  obtain ⟨times, t, hrepeat, -⟩ := h
  cases hrepeat

/-! ## What has been sent -/

/-- A round of the repeat loop: something is put into `q`, and a transfer follows. -/
def Round (io io' : Io) : Prop :=
  ∃ s2, randomizedTransfer { io with q := io.q ++ s2 } false = .ok io'

theorem rounds_repeatPut (s2 : List UInt8) (n : Nat) {io io' : Io}
    (h : repeatPut s2 n io = .ok io') : ReflTransGen Round io io' := by
  induction n generalizing io with
  | zero =>
    cases h
    exact .refl
  | succ n ih =>
    obtain ⟨io₁, htransfer, -⟩ := randomizedTransfer_ok { io with q := io.q ++ s2 } false
    simp only [repeatPut, htransfer, bind, Except.bind] at h
    exact .head ⟨s2, htransfer⟩ (ih h)

/-- `io'` comes from `io`: bytes have moved on, and not too many have stayed. -/
structure Forwards (io io' : Io) : Prop where
  target : io.target <+: io'.target
  q : io.q.length ≤ 4096 → io'.q.length ≤ 4096

theorem Forwards.refl (io : Io) : Forwards io io := ⟨List.prefix_rfl, id⟩

theorem Forwards.trans {io io₁ io₂ : Io} (h : Forwards io io₁) (h' : Forwards io₁ io₂) :
    Forwards io io₂ := ⟨h.target.trans h'.target, h'.q ∘ h.q⟩

theorem Round.forwards {io io' : Io} (h : Round io io') : Forwards io io' := by
  obtain ⟨s2, h⟩ := h
  obtain ⟨io₁, moved, hloop, htarget, -, hle⟩ :=
    transferLoop_eq false { io with q := io.q ++ s2 }
  rw [randomizedTransfer, hloop _ le_rfl] at h
  cases h
  exact ⟨⟨moved, htarget.symm⟩, fun _ => hle⟩

theorem forwards_of_rounds {io io' : Io} (h : ReflTransGen Round io io') : Forwards io io' := by
  induction h with
  | refl => exact .refl io
  | tail _ hround ih => exact ih.trans hround.forwards

/-- A turn that goes on. -/
theorem turn_item {s1 bytes rest : List UInt8} {times : Int}
    (hscan : scan cryptopp s1 = .ok (.item bytes times rest)) (hpos : 0 ≤ times) (io : Io) :
    ∃ io', turn cryptopp s1 io = .ok (some rest, io') ∧
      io'.stream = io.stream ++ repeated bytes times ∧ ReflTransGen Round io io' := by
  obtain ⟨io', hput, hs⟩ := putRepeated_ok bytes (Int.not_lt.mpr hpos) io
  refine ⟨io', ?_, hs, ?_⟩
  · simp only [turn_eq, hscan, Except.bind, hput, Except.map]
  · rw [putRepeated, if_neg (Int.not_lt.mpr hpos)] at hput
    exact rounds_repeatPut bytes times.toNat hput

/-- A turn that throws. -/
theorem turn_error_iff {s1 : List UInt8} {io : Io} :
    turn cryptopp s1 io = .error .outOfRange ↔ OpenQuote s1 := by
  rw [← scan_error_iff cryptopp, turn_eq]
  cases hscan : scan cryptopp s1 with
  | error e => simp [Except.bind]
  | ok v =>
    refine iff_of_false (fun h => ?_) nofun
    cases v with
    | final bytes => cases h
    | item bytes times rest =>
      by_cases hneg : times < 0
      · simp [Except.bind, Except.map, putRepeated, hneg] at h
      · obtain ⟨io', hput, -⟩ := putRepeated_ok bytes hneg io
        simp [Except.bind, Except.map, hput] at h

/-! ## The loop -/

/-- The two forms of the loop agree. -/
theorem parseLoop_eq_parseUntil (fuel : Nat) (s1 : List UInt8) (io : Io) :
    parseLoop cryptopp fuel s1 io =
      (parseUntil cryptopp fuel s1 io).2.elim (.ok (parseUntil cryptopp fuel s1 io).1) .error := by
  induction fuel generalizing s1 io with
  | zero =>
    by_cases hs : s1 = []
    · simp [parseLoop, parseUntil, hs]
    · simp [parseLoop, parseUntil, hs]
  | succ fuel ih =>
    by_cases hs : s1 = []
    · simp [parseLoop, parseUntil, hs]
    · simp only [parseLoop, parseUntil, if_neg hs]
      cases hturn : turn cryptopp s1 io with
      | error e => rfl
      | ok p =>
        obtain ⟨next, io'⟩ := p
        cases next with
        | none => rfl
        | some rest => exact ih rest io'

/-- The last transfer does not throw. -/
theorem putDecodedDatumInto_error_iff {fuel : Nat} {s1 target : List UInt8} {draws : Nat → Nat} :
    putDecodedDatumInto cryptopp fuel s1 target draws = .error .outOfRange ↔
      (parseUntil cryptopp fuel s1 ⟨[], target, draws, 0⟩).2 = some .outOfRange := by
  simp only [putDecodedDatumInto, parseLoop_eq_parseUntil, bind]
  cases h : (parseUntil cryptopp fuel s1 ⟨[], target, draws, 0⟩).2 with
  | none =>
    obtain ⟨io', hio', -⟩ :=
      randomizedTransfer_ok (parseUntil cryptopp fuel s1 ⟨[], target, draws, 0⟩).1 true
    simp [Except.bind, hio']
  | some e => simp [Except.bind]

/-- **Up to the quote.** By induction on the fuel: the turns read what they put. -/
theorem parseUntil_throws {fuel : Nat} {s1 : List UInt8} {io io' : Io}
    (h : parseUntil cryptopp fuel s1 io = (io', some .outOfRange)) :
    ∃ bytes s, Reads cryptopp s1 bytes s ∧ OpenQuote s ∧ io'.stream = io.stream ++ bytes ∧
      ReflTransGen Round io io' := by
  induction fuel generalizing s1 io with
  | zero =>
    rw [parseUntil, Prod.mk.injEq] at h
    split_ifs at h
    · cases h.2
    · cases h.2
  | succ fuel ih =>
    rw [parseUntil] at h
    split_ifs at h with hs
    · cases h
    · cases hscan : scan cryptopp s1 with
      | error e =>
        obtain rfl := scan_error hscan
        have hquote := (scan_error_iff cryptopp).mp hscan
        rw [turn_error_iff.mpr hquote] at h
        cases h
        exact ⟨[], s1, .refl s1, hquote, by simp, .refl⟩
      | ok v =>
        cases v with
        | final bytes =>
          simp only [turn_eq, hscan, Except.bind, Prod.mk.injEq, reduceCtorEq, and_false] at h
        | item bytes times rest =>
          by_cases hneg : times < 0
          · simp [turn_eq, hscan, Except.bind, Except.map, putRepeated, hneg] at h
          · have hpos := Int.not_lt.mp hneg
            obtain ⟨io₁, hturn, hs₁, hrounds⟩ := turn_item hscan hpos io
            simp only [hturn] at h
            obtain ⟨out, s, hreads, hquote, hs₂, hrounds'⟩ := ih h
            refine ⟨repeated bytes times ++ out, s, .head hs hscan hpos hreads, hquote, ?_,
              hrounds.trans hrounds'⟩
            rw [hs₂, hs₁, List.append_assoc]

/-- **Back from the quote.** -/
theorem Reads.throws {s1 bytes s : List UInt8} (h : Reads cryptopp s1 bytes s)
    (hs : OpenQuote s) : ∃ fuel, ∀ io, (parseUntil cryptopp fuel s1 io).2 = some .outOfRange := by
  induction h with
  | refl s =>
    refine ⟨1, fun io => ?_⟩
    rw [parseUntil, if_neg hs.ne_nil, turn_error_iff.mpr hs]
  | head hne hscan hpos _ ih =>
    obtain ⟨fuel, hfuel⟩ := ih hs
    refine ⟨fuel + 1, fun io => ?_⟩
    obtain ⟨io', hturn, -⟩ := turn_item hscan hpos io
    rw [parseUntil, if_neg hne, hturn]
    exact hfuel io'

/-- The turns up to the quote depend on the text alone. -/
theorem Reads.unique {s1 bytes bytes' s s' : List UInt8} (h : Reads cryptopp s1 bytes s)
    (hs : OpenQuote s) (h' : Reads cryptopp s1 bytes' s') (hs' : OpenQuote s') :
    bytes = bytes' := by
  induction h generalizing bytes' with
  | refl s =>
    cases h' with
    | refl => rfl
    | head hne hscan hpos h =>
      rw [(scan_error_iff cryptopp).mpr hs] at hscan
      cases hscan
  | head hne hscan hpos h ih =>
    cases h' with
    | refl =>
      rw [(scan_error_iff cryptopp).mpr hs'] at hscan
      cases hscan
    | head hne' hscan' hpos' h' =>
      rw [hscan] at hscan'
      cases hscan'
      rw [ih hs h']

/-- **When the parser throws, and what it leaves.** It throws exactly when its turns come
to a quote that is not closed. Then the target has got what they have read but for its
last 4096 bytes at most, whatever is drawn. -/
theorem throws_iff (cryptopp : CryptoPP) (s1 : List UInt8) :
    ((∃ fuel, ∀ target draws,
        putDecodedDatumInto cryptopp fuel s1 target draws = .error .outOfRange) ↔
      ∃ bytes s, Reads cryptopp s1 bytes s ∧ OpenQuote s) ∧
    ∀ bytes s, Reads cryptopp s1 bytes s → OpenQuote s → ∀ fuel target draws,
      putDecodedDatumInto cryptopp fuel s1 target draws = .error .outOfRange →
        ∃ io sent, parseUntil cryptopp fuel s1 ⟨[], target, draws, 0⟩ = (io, some .outOfRange) ∧
          io.target = target ++ sent ∧ sent ++ io.q = bytes ∧ io.q.length ≤ 4096 := by
  have hleft : ∀ fuel target draws,
      putDecodedDatumInto cryptopp fuel s1 target draws = .error .outOfRange →
        ∃ io sent bytes s, parseUntil cryptopp fuel s1 ⟨[], target, draws, 0⟩ =
          (io, some .outOfRange) ∧ Reads cryptopp s1 bytes s ∧ OpenQuote s ∧
            io.target = target ++ sent ∧ sent ++ io.q = bytes ∧ io.q.length ≤ 4096 := by
    intro fuel target draws h
    obtain ⟨io, hio⟩ : ∃ io, parseUntil cryptopp fuel s1 ⟨[], target, draws, 0⟩ =
        (io, some .outOfRange) := ⟨_, Prod.ext rfl (putDecodedDatumInto_error_iff.mp h)⟩
    obtain ⟨bytes, s, hreads, hquote, hs, hrounds⟩ := parseUntil_throws hio
    obtain ⟨⟨sent, hsent⟩, hq⟩ := forwards_of_rounds hrounds
    refine ⟨io, sent, bytes, s, hio, hreads, hquote, hsent.symm, ?_, hq (by simp)⟩
    rw [Io.stream, ← hsent, Io.stream, List.append_nil, List.append_assoc,
      List.append_cancel_left_eq] at hs
    exact hs
  refine ⟨⟨?_, ?_⟩, ?_⟩
  · rintro ⟨fuel, h⟩
    obtain ⟨io, sent, bytes, s, -, hreads, hquote, -⟩ := hleft fuel [] id (h [] id)
    exact ⟨bytes, s, hreads, hquote⟩
  · rintro ⟨bytes, s, hreads, hquote⟩
    obtain ⟨fuel, hfuel⟩ := hreads.throws hquote
    exact ⟨fuel, fun target draws => putDecodedDatumInto_error_iff.mpr (hfuel _)⟩
  · intro bytes s hreads hquote fuel target draws h
    obtain ⟨io, sent, bytes', s', hio, hreads', hquote', htarget, hbytes, hq⟩ :=
      hleft fuel target draws h
    exact ⟨io, sent, hio, htarget, hbytes.trans (hreads'.unique hquote' hreads hquote), hq⟩

/-- `00 "ab`: the byte in front of the quote is lost. -/
theorem throws_with_byte_left :
    ∃ io sent, parseUntil ⟨Hex.decode⟩ 3 [48, 48, 32, 34, 97, 98] ⟨[], [], id, 0⟩ =
      (io, some .outOfRange) ∧ io.target = [] ++ sent ∧ sent ++ io.q = [0] ∧
        io.q.length ≤ 4096 := by
  have hquote : OpenQuote [32, 34, 97, 98] := ⟨1, [97, 98], rfl, by decide⟩
  have hscan : scan ⟨Hex.decode⟩ [48, 48, 32, 34, 97, 98] =
      .ok (.item [0] 1 [32, 34, 97, 98]) := rfl
  have hreads : Reads ⟨Hex.decode⟩ [48, 48, 32, 34, 97, 98] [0] [32, 34, 97, 98] :=
    Reads.head (by simp) hscan (by decide) (.refl _)
  exact (throws_iff ⟨Hex.decode⟩ [48, 48, 32, 34, 97, 98]).2 [0] _ hreads hquote 3 [] id rfl

end LearnFramework.Eth
