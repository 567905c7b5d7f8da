import LearnFramework.Lib.Hex
import Mathlib.Data.List.TakeWhile

/-!
# The C++ library under the datum parser

`std::string` as a list of bytes, with the members that the parser calls. `npos`
is `none`: it is larger than any position, `npos + 1` is 0, and `npos - 1` still
larger than any length. `atoi` and the extraction of an unsigned integer in base
16 follow the C library and `std::num_get` in the classic locale.
-/

namespace LearnFramework.Eth

/-- What ends the parser other than its return. -/
inductive Stop where
  /-- `std::out_of_range`, thrown by `substr` -/
  | outOfRange
  /-- `repeat--` at the least `int` -/
  | signedOverflow
  /-- `GenerateWord32(min, max)` with `max < min` -/
  | emptyRange
  /-- a write past the end of `buf` -/
  | outOfBuffer
  | outOfFuel
  deriving DecidableEq, Repr

/-- `s.find(c, pos)`. -/
def find (s : List UInt8) (c : UInt8) (pos : Nat) : Option Nat :=
  if c ∈ s.drop pos then some (pos + (s.drop pos).idxOf c) else none

/-- `s.substr(pos, n)`; it throws when `pos` is past the end. -/
def substr (s : List UInt8) (pos : Nat) (n : Option Nat) : Except Stop (List UInt8) :=
  if s.length < pos then .error .outOfRange
  else match n with
    | none => .ok (s.drop pos)
    | some n => .ok ((s.drop pos).take n)

/-- `s.erase(0, s.find_first_not_of(" "))`, unless there are only spaces. -/
def skipSpaces (s : List UInt8) : List UInt8 :=
  if s.all (· = 32) then s else s.dropWhile (· = 32)

/-- `isspace` in the classic locale. -/
def isSpace (c : UInt8) : Bool := c = 32 || 9 ≤ c && c ≤ 13

def isDecDigit (c : UInt8) : Bool := 48 ≤ c && c ≤ 57

def decValue (s : List UInt8) : Nat := s.foldl (fun n c => n * 10 + (c.toNat - 48)) 0

/-- An optional sign. -/
def takeSign : List UInt8 → Bool × List UInt8
  | 45 :: s => (true, s)
  | 43 :: s => (false, s)
  | s => (false, s)

/-- `std::atoi`: `strtol`, which clamps to `long`, and a conversion to `int`. -/
def atoi (s : List UInt8) : Int :=
  let (negative, s) := takeSign (s.dropWhile isSpace)
  let n : Int := decValue (s.takeWhile isDecDigit)
  let long := max (-2 ^ 63) (min (2 ^ 63 - 1) (if negative then -n else n))
  long.bmod (2 ^ 32)

/-- The prefix that base 16 allows, and whether a zero alone has been read. -/
def takeBasePrefix : List UInt8 → Bool × List UInt8
  | 48 :: 120 :: s => (false, s)
  | 48 :: 88 :: s => (false, s)
  | 48 :: s => (true, s)
  | s => (false, s)

/-- `iss >> std::skipws >> std::hex >> value` for an unsigned type of `bits` bits:
the value and the rest of the stream, or `none` when it fails. -/
def extractHex (bits : Nat) (s : List UInt8) : Option (Nat × List UInt8) :=
  let (negative, s) := takeSign (s.dropWhile isSpace)
  let (zero, s) := takeBasePrefix s
  let digits := s.takeWhile Hex.isDigit
  let n := Hex.value digits
  if digits = [] ∧ zero = false then none
  else if 2 ^ bits ≤ n then none
  else some (if negative then (2 ^ bits - n) % 2 ^ bits else n, s.dropWhile Hex.isDigit)

/-- `while (iss >> ... >> value)`. Each value takes at least one character, so
there are no more values than characters. -/
def extractAll (bits : Nat) (s : List UInt8) : List Nat := go s.length s
where
  go : Nat → List UInt8 → List Nat
    | 0, _ => []
    | n + 1, s =>
      match extractHex bits s with
      | none => []
      | some (value, rest) => value :: go n rest

/-! ## Scanning over a known text -/

theorem find_append {s t : List UInt8} {c : UInt8} (h : c ∉ s) :
    find (s ++ t) c 0 = (find t c 0).map (s.length + ·) := by
  simp only [find, List.drop_zero, List.mem_append, h, false_or, zero_add]
  split
  · rename_i ht
    rw [List.idxOf_append_of_notMem h]
    rfl
  · rfl

@[simp] theorem find_cons_self (c : UInt8) (s : List UInt8) : find (c :: s) c 0 = some 0 := by
  simp [find]

theorem skipSpaces_append {c : UInt8} (hc : c ≠ 32) (n : Nat) (s : List UInt8) :
    skipSpaces (List.replicate n 32 ++ c :: s) = c :: s := by
  have hall : (List.replicate n (32 : UInt8) ++ c :: s).all (· = 32) = false := by
    rw [List.all_append, List.all_cons, decide_eq_false hc]
    simp
  rw [skipSpaces, hall, if_neg Bool.false_ne_true]
  induction n with
  | zero => simp [hc]
  | succ n ih =>
    rw [List.replicate_succ, List.cons_append, List.dropWhile_cons, if_pos (by simp)]
    apply ih
    rw [List.all_append, List.all_cons, decide_eq_false hc]
    simp

/-- Characters of different kinds differ. -/
theorem ne_of_kind {p : UInt8 → Bool} {c d : UInt8} (hc : p c = true) (hd : p d = false) :
    c ≠ d := by
  rintro rfl
  rw [hc] at hd
  cases hd

theorem not_mem_of_kind {p : UInt8 → Bool} {s : List UInt8} (hs : ∀ c ∈ s, p c = true)
    {c : UInt8} (hc : p c = false) : c ∉ s := fun hm => ne_of_kind (hs c hm) hc rfl

/-- A run that ends before a character of another kind, or at the end. -/
theorem takeWhile_append {p : UInt8 → Bool} {s t : List UInt8} (hs : ∀ c ∈ s, p c = true)
    (ht : ∀ c ∈ t.head?, p c = false) : (s ++ t).takeWhile p = s := by
  rw [List.takeWhile_append_of_pos hs]
  cases t with
  | nil => simp
  | cons c t => simp [ht c (by simp)]

theorem dropWhile_append {p : UInt8 → Bool} {s t : List UInt8} (hs : ∀ c ∈ s, p c = true)
    (ht : ∀ c ∈ t.head?, p c = false) : (s ++ t).dropWhile p = t := by
  rw [List.dropWhile_append_of_pos hs]
  cases t with
  | nil => rfl
  | cons c t => simp [ht c (by simp)]

end LearnFramework.Eth
