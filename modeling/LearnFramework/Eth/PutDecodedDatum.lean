import LearnFramework.Eth.CppString
import LearnFramework.Lib.Cursor

/-!
# The datum parser

`PutDecodedDatumInto` and `RandomizedTransfer` of `learneth`. The queue `q` and
the target are FIFOs of bytes; `draws` is what the random generator will draw,
reduced into the range that each call asks for. Sizes stay below 2^62, so they
are naturals. The hex decoder of Crypto++ is a parameter.

A turn of the outer loop takes one token off the text. The loop has fuel, since
on some texts it takes nothing off and does not end; the transfer loop has as
many turns as the queue has bytes, which is enough when each turn moves one.
-/

namespace LearnFramework.Eth

open Bytes

/-- The parts of Crypto++ that are not modelled. -/
structure CryptoPP where
  /-- `StringSource(text, true, new HexDecoder(new StringSink(s2)))` -/
  hexDecoder : List UInt8 → List UInt8

/-- Characters that are no hex digits are skipped, pairs of digits are packed with
the high nibble first, and an unpaired last digit is dropped. -/
def CryptoPP.Documented (cryptopp : CryptoPP) : Prop :=
  ∀ s, cryptopp.hexDecoder s = Hex.decode s

structure Io where
  q : List UInt8
  target : List UInt8
  draws : Nat → Nat
  drawn : Nat

/-- `GlobalRNG().GenerateWord32(min, max)`. -/
def generateWord32 (io : Io) (min max : Nat) : Except Stop (Nat × Io) :=
  if max < min then .error .emptyRange
  else .ok (min + io.draws io.drawn % (max - min + 1), { io with drawn := io.drawn + 1 })

/-- One turn of the loop of `RandomizedTransfer`: a chunk goes through `buf`. -/
def transferTurn (io : Io) : Except Stop Io := do
  let (start, io) ← generateWord32 io 0 63
  let (len, io) ← generateWord32 io 1 (min 4096 (3 * io.q.length / 2))
  let chunk := io.q.take len
  if 4096 + 64 < start + chunk.length then .error .outOfBuffer
  else .ok { io with q := io.q.drop len, target := io.target ++ chunk }

/-- `source.MaxRetrievable() > (finish ? 0 : 4096)`. -/
def moreToTransfer (finish : Bool) (io : Io) : Bool := io.q.length > (if finish then 0 else 4096)

def transferLoop (finish : Bool) : Nat → Io → Except Stop Io
  | 0, io => if moreToTransfer finish io then .error .outOfFuel else .ok io
  | fuel + 1, io =>
    if moreToTransfer finish io then (transferTurn io).bind (transferLoop finish fuel) else .ok io

def randomizedTransfer (io : Io) (finish : Bool) : Except Stop Io :=
  transferLoop finish io.q.length io

/-- `while (repeat--)` for a count that is not negative. -/
def repeatPut (s2 : List UInt8) : Nat → Io → Except Stop Io
  | 0, io => .ok io
  | n + 1, io => do
    let io ← randomizedTransfer { io with q := io.q ++ s2 } false
    repeatPut s2 n io

/-- `while (repeat--)`; a negative count is decremented down to the least `int`,
and once more. -/
def putRepeated (s2 : List UInt8) (times : Int) (io : Io) : Except Stop Io :=
  if times < 0 then .error .signedOverflow else repeatPut s2 times.toNat io

def word32 : List UInt8 := [119, 111, 114, 100, 51, 50]

def word64 : List UInt8 := [119, 111, 114, 100, 54, 52]

/-- The bytes of a value in memory after `ConditionalByteReverse(LITTLE_ENDIAN_ORDER, value)`. -/
def littleEndian (size value : Nat) : List UInt8 := (toBE size value).reverse

/-- The bytes that a word section puts into the queue. -/
def wordSection (s1 : List UInt8) : List UInt8 :=
  let iss := s1.drop 6
  if s1.take 6 = word64 then (extractAll 64 iss).flatMap (littleEndian 8)
  else (extractAll 32 iss).flatMap (littleEndian 4)

/-- The three forms of a token: `s2` and the rest of `s1`. -/
def token (cryptopp : CryptoPP) (s1 : List UInt8) : Except Stop (List UInt8 × List UInt8) := do
  if s1.head? = some 34 then
    let s2 ← substr s1 1 ((find s1 34 1).map (· - 1))
    let s1 ← substr s1 (s2.length + 2) none
    .ok (s2, s1)
  else if s1.take 2 = [48, 120] then
    let n := find s1 32 0
    -- The length should be `n - 2`: this reads two characters on.
    let digits ← substr s1 2 n
    let s1 ← substr s1 (n.elim s1.length (min · s1.length)) none
    .ok (cryptopp.hexDecoder digits, s1)
  else
    let n := find s1 32 0
    let digits ← substr s1 0 n
    let s1 ← substr s1 (n.elim s1.length (min · s1.length)) none
    .ok (cryptopp.hexDecoder digits, s1)

/-- The `r` prefix: the count and the rest. -/
def takeRepeat (s1 : List UInt8) : Except Stop (Int × List UInt8) := do
  if s1.head? = some 114 then
    let s1 := s1.drop 1
    let times := atoi s1
    let s1 ← substr s1 ((find s1 32 0).elim 0 (· + 1)) none
    .ok (times, s1)
  else .ok (1, s1)

/-- One turn of the outer loop; `none` is `goto end`. -/
def turn (cryptopp : CryptoPP) (s1 : List UInt8) (io : Io) :
    Except Stop (Option (List UInt8) × Io) := do
  let s1 := skipSpaces s1
  if s1 = [] then .ok (none, io)
  else
    let (times, s1) ← takeRepeat s1
    if 6 ≤ s1.length ∧ (s1.take 6 = word32 ∨ s1.take 6 = word64) then
      .ok (none, { io with q := io.q ++ wordSection s1 })
    else
      let (s2, s1) ← token cryptopp s1
      let io ← putRepeated s2 times io
      .ok (some s1, io)

def parseLoop (cryptopp : CryptoPP) : Nat → List UInt8 → Io → Except Stop Io
  | 0, s1, io => if s1 = [] then .ok io else .error .outOfFuel
  | fuel + 1, s1, io =>
    if s1 = [] then .ok io
    else (turn cryptopp s1 io).bind fun
      | (none, io) => .ok io
      | (some s1, io) => parseLoop cryptopp fuel s1 io

/-- What `PutDecodedDatumInto` leaves in `target`. -/
def putDecodedDatumInto (cryptopp : CryptoPP) (fuel : Nat) (s1 target : List UInt8)
    (draws : Nat → Nat) : Except Stop (List UInt8) := do
  let io ← parseLoop cryptopp fuel s1 ⟨[], target, draws, 0⟩
  let io ← randomizedTransfer io true
  .ok io.target

/-! ## Transfers -/

/-- The bytes on their way: what is in the target and behind it in the queue. -/
def Io.stream (io : Io) : List UInt8 := io.target ++ io.q

theorem generateWord32_eq (io : Io) {min max : Nat} (h : min ≤ max) :
    ∃ n, generateWord32 io min max = .ok (n, { io with drawn := io.drawn + 1 }) ∧
      min ≤ n ∧ n ≤ max := by
  refine ⟨min + io.draws io.drawn % (max - min + 1), if_neg (by omega), Nat.le_add_right _ _, ?_⟩
  have := Nat.mod_lt (io.draws io.drawn) (show 0 < max - min + 1 by omega)
  omega

/-- A turn moves at least one byte, in range and inside `buf`. -/
theorem transferTurn_eq (io : Io) (h : io.q ≠ []) :
    ∃ len, 1 ≤ len ∧ transferTurn io = .ok { io with
      q := io.q.drop len
      target := io.target ++ io.q.take len
      drawn := io.drawn + 1 + 1 } := by
  have hpos := List.length_pos_iff.mpr h
  obtain ⟨start, hstart, -, hstart'⟩ := generateWord32_eq io (Nat.zero_le 63)
  obtain ⟨len, hlen, hlen1, hlen2⟩ := generateWord32_eq { io with drawn := io.drawn + 1 }
    (show 1 ≤ min 4096 (3 * io.q.length / 2) by omega)
  have hfit : ¬4096 + 64 < start + (io.q.take len).length := by
    simp only [List.length_take]
    omega
  refine ⟨len, hlen1, ?_⟩
  simp only [transferTurn, hstart, hlen, bind, Except.bind, if_neg hfit]

/-- What a transfer may leave in the queue. -/
def residue (finish : Bool) : Nat := if finish then 0 else 4096

/-- A transfer moves a piece from the front of the queue and leaves as little as it should,
whatever is drawn. It has as many turns as it takes. -/
theorem transferLoop_eq (finish : Bool) (io : Io) :
    ∃ io' moved, (∀ fuel, io.q.length ≤ fuel → transferLoop finish fuel io = .ok io') ∧
      io'.target = io.target ++ moved ∧ moved ++ io'.q = io.q ∧
      io'.q.length ≤ residue finish := by
  induction hn : io.q.length using Nat.strong_induction_on generalizing io with
  | _ n ih =>
    subst hn
    cases hm : moreToTransfer finish io with
    | true =>
      have hne : io.q ≠ [] := by
        intro hq
        simp [moreToTransfer, hq] at hm
      have hpos := List.length_pos_iff.mpr hne
      obtain ⟨len, hlen, hturn⟩ := transferTurn_eq io hne
      obtain ⟨io', moved, hloop, htarget, hq, hle⟩ := ih _
        (by simp only [List.length_drop]; omega)
        { io with
          q := io.q.drop len
          target := io.target ++ io.q.take len
          drawn := io.drawn + 1 + 1 } rfl
      refine ⟨io', io.q.take len ++ moved, fun fuel hfuel => ?_, ?_, ?_, hle⟩
      · obtain ⟨fuel, rfl⟩ : ∃ k, fuel = k + 1 := ⟨fuel - 1, by omega⟩
        rw [transferLoop, hm, if_pos rfl, hturn]
        refine hloop fuel ?_
        simp only [List.length_drop]
        omega
      · rw [htarget, List.append_assoc]
      · rw [List.append_assoc, hq, List.take_append_drop]
    | false =>
      refine ⟨io, [], fun fuel _ => ?_, (List.append_nil _).symm, rfl, ?_⟩
      · cases fuel with
        | zero => rw [transferLoop, hm]; rfl
        | succ fuel => rw [transferLoop, hm]; rfl
      · simpa [moreToTransfer, residue] using hm

theorem randomizedTransfer_ok (io : Io) (finish : Bool) :
    ∃ io', randomizedTransfer io finish = .ok io' ∧ io'.stream = io.stream ∧
      (finish = true → io'.q = []) := by
  obtain ⟨io', moved, hloop, htarget, hq, hle⟩ := transferLoop_eq finish io
  refine ⟨io', hloop _ le_rfl, ?_, ?_⟩
  · rw [Io.stream, htarget, List.append_assoc, hq, Io.stream]
  · rintro rfl
    exact List.length_eq_zero_iff.mp (Nat.le_zero.mp hle)

theorem repeatPut_ok (s2 : List UInt8) (n : Nat) (io : Io) :
    ∃ io', repeatPut s2 n io = .ok io' ∧
      io'.stream = io.stream ++ (List.replicate n s2).flatten := by
  induction n generalizing io with
  | zero => exact ⟨io, rfl, by simp⟩
  | succ n ih =>
    obtain ⟨io₁, h₁, hs₁, -⟩ := randomizedTransfer_ok { io with q := io.q ++ s2 } false
    obtain ⟨io₂, h₂, hs₂⟩ := ih io₁
    refine ⟨io₂, ?_, ?_⟩
    · simp only [repeatPut, h₁, bind, Except.bind, h₂]
    · rw [hs₂, hs₁, List.replicate_succ, List.flatten_cons]
      simp [Io.stream]

end LearnFramework.Eth
