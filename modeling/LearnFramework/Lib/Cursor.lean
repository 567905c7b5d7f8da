import Mathlib.Algebra.Ring.Nat
import Mathlib.Data.List.Basic
import Mathlib.Data.List.Induction
import Mathlib.Data.UInt

/-!
# A cursor in a byte buffer

A `char*` into a buffer, as the bytes before it and the bytes from it on. Reading
and writing a big-endian integer moves the cursor by the width, and fails when
the buffer ends before.
-/

namespace Bytes

/-- The big-endian bytes of `v`, `width` of them. -/
def toBE : Nat → Nat → List UInt8
  | 0, _ => []
  | width + 1, v => toBE width (v / 256) ++ [UInt8.ofNat v]

/-- The integer that big-endian bytes stand for. -/
def ofBE (bytes : List UInt8) : Nat := bytes.foldl (fun n b => n * 256 + b.toNat) 0

@[simp] theorem toBE_length (width v : Nat) : (toBE width v).length = width := by
  induction width generalizing v with
  | zero => rfl
  | succ width ih => simp [toBE, ih]

theorem ofBE_concat (bytes : List UInt8) (b : UInt8) :
    ofBE (bytes ++ [b]) = ofBE bytes * 256 + b.toNat := List.foldl_append ..

theorem ofBE_lt (bytes : List UInt8) : ofBE bytes < 256 ^ bytes.length := by
  induction bytes using List.reverseRecOn with
  | nil => exact Nat.one_pos
  | append_singleton bytes b ih =>
    have hb : b.toNat < 256 := b.toNat_lt
    rw [ofBE_concat, List.length_append, List.length_singleton, pow_succ]
    omega

/-- A number that fits is read back. -/
theorem ofBE_toBE {width v : Nat} (h : v < 256 ^ width) : ofBE (toBE width v) = v := by
  induction width generalizing v with
  | zero => exact (Nat.lt_one_iff.mp h).symm
  | succ width ih =>
    have hdiv : v / 256 < 256 ^ width := Nat.div_lt_of_lt_mul (by rwa [pow_succ, mul_comm] at h)
    have hb : (UInt8.ofNat v).toNat = v % 256 := UInt8.toNat_ofNat'
    rw [toBE, ofBE_concat, ih hdiv, hb]
    omega

/-- The width of a list of fields, each a width and a value. -/
def width (fields : List (Nat × Nat)) : Nat := (fields.map Prod.fst).sum

def encode (fields : List (Nat × Nat)) : List UInt8 := fields.flatMap fun f => toBE f.1 f.2

theorem encode_cons (field : Nat × Nat) (fields : List (Nat × Nat)) :
    encode (field :: fields) = toBE field.1 field.2 ++ encode fields := List.flatMap_cons

@[simp] theorem encode_length (fields : List (Nat × Nat)) :
    (encode fields).length = width fields := by
  simp [encode, width, List.length_flatMap]

structure Cursor where
  before : List UInt8
  after : List UInt8
  deriving DecidableEq, Repr

namespace Cursor

/-- The whole buffer. -/
def buffer (c : Cursor) : List UInt8 := c.before ++ c.after

/-- A cursor at the start of a buffer. -/
def start (buffer : List UInt8) : Cursor := ⟨[], buffer⟩

def read (c : Cursor) (width : Nat) : Option (Nat × Cursor) :=
  if width ≤ c.after.length then
    some (ofBE (c.after.take width), ⟨c.before ++ c.after.take width, c.after.drop width⟩)
  else none

def write (c : Cursor) (width v : Nat) : Option Cursor :=
  if width ≤ c.after.length then
    some ⟨c.before ++ toBE width v, c.after.drop width⟩
  else none

/-- Write one field after the other, each a width and a value. -/
def writeAll (c : Cursor) : List (Nat × Nat) → Option Cursor
  | [] => some c
  | field :: fields => (c.write field.1 field.2).bind fun c => c.writeAll fields

theorem read_eq {c : Cursor} {width : Nat} (h : width ≤ c.after.length) :
    c.read width =
      some (ofBE (c.after.take width), ⟨c.before ++ c.after.take width, c.after.drop width⟩) :=
  if_pos h

theorem write_eq {c : Cursor} {width : Nat} (v : Nat) (h : width ≤ c.after.length) :
    c.write width v = some ⟨c.before ++ toBE width v, c.after.drop width⟩ := if_pos h

/-- Fields that fit are written one behind the other, and the rest of the buffer
keeps its place. -/
theorem writeAll_eq (fields : List (Nat × Nat)) :
    ∀ c : Cursor, width fields ≤ c.after.length →
      c.writeAll fields = some ⟨c.before ++ encode fields, c.after.drop (width fields)⟩ := by
  induction fields with
  | nil => simp [writeAll, encode, width]
  | cons field fields ih =>
    intro c h
    have hw : width (field :: fields) = field.1 + width fields := by simp [width]
    rw [writeAll, write_eq _ (by omega), Option.bind_some, ih]
    · simp [encode, hw, List.drop_drop]
    · simp only [List.length_drop]
      omega

end Cursor

end Bytes
