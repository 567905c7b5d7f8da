import Mathlib.Data.List.TakeWhile

/-!
# Output streams of C++

A stream is the text that it has written, and whether it is good. One that is not
good writes nothing; inserting a null pointer makes it so.
-/

namespace Ostreams

structure Ostream where
  text : List UInt8
  good : Bool

/-- The string at the start of a piece of memory. -/
def cString (memory : List UInt8) : List UInt8 := memory.takeWhile (· ≠ 0)

namespace Ostream

def insert (o : Ostream) (bytes : List UInt8) : Ostream :=
  if o.good then { o with text := o.text ++ bytes } else o

/-- `std::endl`. -/
def endl (o : Ostream) : Ostream := o.insert [10]

/-- `operator<<(const char *)`, with what lies at the pointer. -/
def insertCString (o : Ostream) : Option (List UInt8) → Ostream
  | none => { o with good := false }
  | some memory => o.insert (cString memory)

@[simp] theorem insert_good (o : Ostream) (bytes : List UInt8) :
    (o.insert bytes).good = o.good := by
  unfold insert
  split <;> rfl

theorem insert_text (o : Ostream) (bytes : List UInt8) :
    (o.insert bytes).text = o.text ++ if o.good then bytes else [] := by
  unfold insert
  split
  · rfl
  · rw [List.append_nil]

@[simp] theorem endl_good (o : Ostream) : o.endl.good = o.good := insert_good o _

theorem endl_text (o : Ostream) : o.endl.text = o.text ++ if o.good then [10] else [] :=
  insert_text o _

theorem insertCString_text (o : Ostream) (memory : Option (List UInt8)) :
    (o.insertCString memory).text =
      o.text ++ if o.good then memory.elim [] cString else [] := by
  cases memory with
  | none => simp [insertCString]
  | some memory => exact insert_text o _

theorem insertCString_good (o : Ostream) (memory : Option (List UInt8)) :
    (o.insertCString memory).good = (o.good && memory.isSome) := by
  cases memory with
  | none => simp [insertCString]
  | some memory => simp [insertCString]

end Ostream

/-- A counted string is read back as it is when no NUL is in it and one is behind it. -/
theorem cString_append_eq_iff {bytes behind : List UInt8} :
    cString (bytes ++ behind) = bytes ↔ 0 ∉ bytes ∧ cString behind = [] := by
  induction bytes with
  | nil => simp
  | cons c bytes ih =>
    by_cases hc : c = 0
    · simp [cString, hc]
    · have hcons : cString (c :: bytes ++ behind) = c :: cString (bytes ++ behind) := by
        simp [cString, hc]
      rw [hcons, List.cons.injEq, ih, List.mem_cons, not_or]
      simp only [true_and, and_congr_left_iff]
      exact fun _ => (and_iff_right (Ne.symm hc)).symm

end Ostreams
