import LearnFramework.Lib.Hex
import Mathlib.Data.List.TakeWhile

/-!
# Hexadecimal texts in `learnopenssl`

`hex_to_bin` and `hex_convert_memory` of its `main.cpp`. The decoder runs over the
memory from `hex` on, in which the text ends with the first NUL; a read behind what is
given of the memory has no effect that is defined. It does not look at `hex_len`. The
encoder ends without a `return`, so only the text that it writes is modelled.
-/

namespace LearnFramework.HexText

/-! ## `sscanf` -/

/-- `isspace` in the "C" locale. -/
def isSpace (c : UInt8) : Bool := c = 32 || (9 ≤ c && c ≤ 13)

/-- The number that the digits in front stand for. -/
def number (s : List UInt8) : Option Nat :=
  if s.takeWhile Hex.isDigit = [] then none else some (Hex.value (s.takeWhile Hex.isDigit))

/-- What `sscanf(s, "%2hhx", p)` stores: behind white space, a number in two characters,
of which the first may be a sign. -/
def convert (s : List UInt8) : Option UInt8 :=
  match (s.dropWhile isSpace).take 2 with
  | 45 :: field => (number field).map fun v => UInt8.ofNat (256 - v)
  | 43 :: field => (number field).map UInt8.ofNat
  | field => (number field).map UInt8.ofNat

/-! ## `hex_to_bin` -/

structure HexToBin where
  /-- the pointers, from the start of `hex` and of `bin` -/
  ph : Nat
  bin : Nat
  /-- what `bin` points to -/
  dest : List UInt8
  /-- the indices read in `hex`; of a range, the greatest -/
  reads : List Nat
  /-- the indices written in `bin` -/
  writes : List Nat
  deriving DecidableEq, Repr

namespace HexToBin

/-- `*ph`, as a condition. -/
def test (memory : List UInt8) (s : HexToBin) : Option (Bool × HexToBin) :=
  (memory[s.ph]?).map fun c => (c ≠ 0, { s with reads := s.reads ++ [s.ph] })

/-- What `sscanf` reads and stores. -/
def scan (s : HexToBin) (text : List UInt8) : HexToBin :=
  let s := { s with reads := s.reads ++ [s.ph + text.length] }
  match convert text with
  | some v => { s with dest := s.dest.set s.bin v, writes := s.writes ++ [s.bin] }
  | none => s

/-- The body of the loop. -/
def turn (memory : List UInt8) (s : HexToBin) : Option HexToBin :=
  let rest := memory.drop s.ph
  if 0 ∈ rest then
    let s := s.scan (rest.takeWhile (· ≠ 0))
    some { s with ph := s.ph + 2, bin := s.bin + 1 }
  else none

/-- The loop, with room for so many bytes up to `end`. -/
def loop (memory : List UInt8) : Nat → HexToBin → Option HexToBin
  | 0, s => (s.test memory).map Prod.snd
  | room + 1, s => (s.test memory).bind fun r =>
    if r.1 then (r.2.turn memory).bind (loop memory room) else some r.2

end HexToBin

def hexToBin (memory dest : List UInt8) (binSize : Nat) : Option HexToBin :=
  HexToBin.loop memory binSize ⟨0, 0, dest, [], []⟩

/-! ## `hex_convert_memory` -/

/-- The loop from `i` on, over the rest of `m`. -/
def convertFrom (n width : Nat) : Nat → List UInt8 → List UInt8
  | _, [] => []
  | i, c :: m =>
    Hex.nibble (c.toNat / 16) :: Hex.nibble (c.toNat % 16) ::
      (if i % width = width - 1 ∧ i ≠ n - 1 then [32] else []) ++ convertFrom n width (i + 1) m

def hexConvertMemory (m : List UInt8) (width : Nat) : List UInt8 :=
  convertFrom m.length width 0 m

/-! ## Inside of a string -/

namespace HexToBin

variable {hex behind : List UInt8} {s : HexToBin}

@[simp] theorem scan_ph (s : HexToBin) (text : List UInt8) : (s.scan text).ph = s.ph := by
  unfold scan
  cases convert text <;> rfl

@[simp] theorem scan_bin (s : HexToBin) (text : List UInt8) : (s.scan text).bin = s.bin := by
  unfold scan
  cases convert text <;> rfl

@[simp] theorem scan_reads (s : HexToBin) (text : List UInt8) :
    (s.scan text).reads = s.reads ++ [s.ph + text.length] := by
  unfold scan
  cases convert text <;> rfl

/-- In front of the NUL the loop goes on, at the NUL it ends. -/
theorem test_string (hnul : 0 ∉ hex) (hph : s.ph ≤ hex.length) :
    s.test (hex ++ 0 :: behind) =
      some (decide (s.ph < hex.length), { s with reads := s.reads ++ [s.ph] }) := by
  rcases Nat.lt_or_eq_of_le hph with hlt | heq
  · have hne : hex[s.ph] ≠ 0 := fun h0 => hnul (h0 ▸ List.getElem_mem hlt)
    simp [test, List.getElem?_append_left hlt, hlt, hne]
  · simp [test, heq]

/-- `sscanf` reads up to the NUL. -/
theorem turn_string (hnul : 0 ∉ hex) (hph : s.ph ≤ hex.length) :
    s.turn (hex ++ 0 :: behind) =
      some { s.scan (hex.drop s.ph) with ph := s.ph + 2, bin := s.bin + 1 } := by
  have hrest : (hex ++ 0 :: behind).drop s.ph = hex.drop s.ph ++ 0 :: behind :=
    List.drop_append_of_le_length hph
  have hnul' : ∀ c ∈ hex.drop s.ph, (decide (c ≠ 0)) = true := by
    intro c hc
    have hne : c ≠ 0 := fun h0 => hnul (h0 ▸ List.mem_of_mem_drop hc)
    simpa using hne
  have htext : (hex.drop s.ph ++ 0 :: behind).takeWhile (· ≠ 0) = hex.drop s.ph := by
    rw [List.takeWhile_append_of_pos hnul']
    simp
  have hmem : 0 ∈ hex.drop s.ph ++ 0 :: behind := by simp
  simp only [turn, hrest, htext, if_pos hmem, scan_ph, scan_bin]

/-- What a turn at a character of the string leaves. -/
def next (hex : List UInt8) (s : HexToBin) : HexToBin :=
  let s' := { s with reads := s.reads ++ [s.ph] }
  { s'.scan (hex.drop s.ph) with ph := s.ph + 2, bin := s.bin + 1 }

@[simp] theorem next_ph (hex : List UInt8) (s : HexToBin) : (s.next hex).ph = s.ph + 2 := rfl

@[simp] theorem next_bin (hex : List UInt8) (s : HexToBin) : (s.next hex).bin = s.bin + 1 := rfl

theorem next_reads (hex : List UInt8) (s : HexToBin) :
    (s.next hex).reads = s.reads ++ [s.ph] ++ [s.ph + (hex.drop s.ph).length] := by
  simp only [next, scan_reads]

theorem next_dest (hex : List UInt8) (s : HexToBin) :
    (s.next hex).dest = match convert (hex.drop s.ph) with
      | some v => s.dest.set s.bin v
      | none => s.dest := by
  simp only [next, scan]
  cases convert (hex.drop s.ph) <;> rfl

theorem next_writes (hex : List UInt8) (s : HexToBin) :
    (s.next hex).writes = match convert (hex.drop s.ph) with
      | some _ => s.writes ++ [s.bin]
      | none => s.writes := by
  simp only [next, scan]
  cases convert (hex.drop s.ph) <;> rfl

theorem loop_next (hnul : 0 ∉ hex) (hph : s.ph < hex.length) (room : Nat) :
    loop (hex ++ 0 :: behind) (room + 1) s = loop (hex ++ 0 :: behind) room (s.next hex) := by
  have hturn : turn (hex ++ 0 :: behind) { s with reads := s.reads ++ [s.ph] } =
      some (s.next hex) := turn_string hnul hph.le
  simp only [loop, test_string hnul hph.le, Option.bind_some, decide_eq_true hph, if_true, hturn]

theorem loop_stop (hnul : 0 ∉ hex) {room : Nat} (hph : s.ph ≤ hex.length)
    (hstop : room = 0 ∨ s.ph = hex.length) :
    loop (hex ++ 0 :: behind) room s = some { s with reads := s.reads ++ [s.ph] } := by
  cases room with
  | zero => simp only [loop, test_string hnul hph, Option.map_some]
  | succ room =>
    have hend : ¬ s.ph < hex.length := by omega
    simp [loop, test_string hnul hph, hend]

end HexToBin

end LearnFramework.HexText
