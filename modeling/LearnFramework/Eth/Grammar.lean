import LearnFramework.Eth.PutDecodedDatum

/-!
# The datum language

What a well-formed datum is, how it is written and which bytes it stands for. A
datum is a sequence of items, each possibly repeated, with at least one space
between two of them, and at most one final section of words; it may start with
spaces and does not end with one. Each part is a structure that carries its own
well-formedness.
-/

namespace LearnFramework.Eth

def spaces (n : Nat) : List UInt8 := List.replicate n 32

inductive Item where
  | quoted (content : List UInt8) (plain : 34 ∉ content)
  | bare (digits : List UInt8) (hex : ∀ c ∈ digits, Hex.isDigit c = true)
      (even : digits.length % 2 = 0) (nonempty : digits ≠ [])
  /-- with `0x` before the digits -/
  | prefixed (digits : List UInt8) (hex : ∀ c ∈ digits, Hex.isDigit c = true)
      (even : digits.length % 2 = 0)

namespace Item

def text : Item → List UInt8
  | .quoted content _ => 34 :: (content ++ [34])
  | .bare digits _ _ _ => digits
  | .prefixed digits _ _ => 48 :: 120 :: digits

def bytes : Item → List UInt8
  | .quoted content _ => content
  | .bare digits _ _ _ => Hex.decode digits
  | .prefixed digits _ _ => Hex.decode digits

end Item

/-- The decimal number of `rN`. -/
structure Count where
  digits : List UInt8
  decimal : ∀ c ∈ digits, isDecDigit c = true
  nonempty : digits ≠ []
  small : decValue digits < 2 ^ 31

structure Entry where
  times : Option Count
  item : Item

namespace Entry

def text (e : Entry) : List UInt8 :=
  match e.times with
  | none => e.item.text
  | some n => 114 :: (n.digits ++ 32 :: e.item.text)

def count (e : Entry) : Nat := e.times.elim 1 fun n => decValue n.digits

def bytes (e : Entry) : List UInt8 := (List.replicate e.count e.item.bytes).flatten

end Entry

inductive Width where
  | word32
  | word64

namespace Width

def bits : Width → Nat
  | .word32 => 32
  | .word64 => 64

def size : Width → Nat
  | .word32 => 4
  | .word64 => 8

def keyword : Width → List UInt8
  | .word32 => Eth.word32
  | .word64 => Eth.word64

end Width

/-- A hex number in the range of its width, with or without `0x`. -/
structure Word (width : Width) where
  zeroX : Bool
  digits : List UInt8
  hex : ∀ c ∈ digits, Hex.isDigit c = true
  nonempty : digits ≠ []
  inRange : Hex.value digits < 2 ^ width.bits

namespace Word

variable {width : Width}

def text (w : Word width) : List UInt8 := if w.zeroX then 48 :: 120 :: w.digits else w.digits

def bytes (w : Word width) : List UInt8 := littleEndian width.size (Hex.value w.digits)

end Word

/-- A final section: its words, each with the number of additional spaces before it. -/
structure Words where
  width : Width
  values : List (Nat × Word width)

namespace Words

def valuesText {width : Width} (values : List (Nat × Word width)) : List UInt8 :=
  values.flatMap fun v => spaces (v.1 + 1) ++ v.2.text

def text (s : Words) : List UInt8 := s.width.keyword ++ valuesText s.values

def bytes (s : Words) : List UInt8 := s.values.flatMap fun v => v.2.bytes

end Words

/-- What stands behind the first entry, each part with the number of additional
spaces before it. -/
structure Tail where
  entries : List (Nat × Entry)
  final : Option (Nat × Words)

namespace Tail

def finalText (final : Option (Nat × Words)) : List UInt8 :=
  final.elim [] fun s => spaces (s.1 + 1) ++ s.2.text

def finalBytes (final : Option (Nat × Words)) : List UInt8 := final.elim [] fun s => s.2.bytes

def text (t : Tail) : List UInt8 :=
  (t.entries.flatMap fun e => spaces (e.1 + 1) ++ e.2.text) ++ finalText t.final

def bytes (t : Tail) : List UInt8 := (t.entries.flatMap fun e => e.2.bytes) ++ finalBytes t.final

end Tail

inductive Datum where
  | empty
  | words (lead : Nat) (s : Words)
  | entries (lead : Nat) (first : Entry) (tail : Tail)

namespace Datum

def text : Datum → List UInt8
  | .empty => []
  | .words lead s => spaces lead ++ s.text
  | .entries lead first tail => spaces lead ++ (first.text ++ tail.text)

def bytes : Datum → List UInt8
  | .empty => []
  | .words _ s => s.bytes
  | .entries _ first tail => first.bytes ++ tail.bytes

/-- The number of entries and sections. -/
def turns : Datum → Nat
  | .empty => 0
  | .words _ _ => 1
  | .entries _ _ tail => tail.entries.length + 2

end Datum

/-! ## Where the parts begin -/

/-- The end of the text, or a space. -/
def Boundary (s : List UInt8) : Prop := ∀ c ∈ s.head?, c = 32

theorem boundary_nil : Boundary [] := fun _ h => by cases h

theorem boundary_spaces (n : Nat) (s : List UInt8) : Boundary (spaces (n + 1) ++ s) := by
  intro c hc
  simpa [spaces, List.replicate_succ, eq_comm] using hc

theorem boundary_space (s : List UInt8) : Boundary (32 :: s) := boundary_spaces 0 s

theorem Words.boundary_valuesText {width : Width} (values : List (Nat × Word width)) :
    Boundary (valuesText values) := by
  cases values with
  | nil => exact boundary_nil
  | cons v values =>
    rw [valuesText, List.flatMap_cons, List.append_assoc]
    exact boundary_spaces _ _

theorem Tail.boundary_text (t : Tail) : Boundary t.text := by
  obtain ⟨entries, final⟩ := t
  cases entries with
  | nil =>
    cases final with
    | none => exact boundary_nil
    | some s => exact boundary_spaces _ _
  | cons e entries =>
    rw [text, List.flatMap_cons, List.append_assoc, List.append_assoc]
    exact boundary_spaces _ _

/-- A character that begins no separator, prefix or section. -/
def Starts (c : UInt8) : Prop := c ≠ 32 ∧ c ≠ 114 ∧ c ≠ 119

theorem starts_of_isDigit {c : UInt8} (h : Hex.isDigit c = true) : Starts c :=
  ⟨ne_of_kind h rfl, ne_of_kind h rfl, ne_of_kind h rfl⟩

theorem Item.text_head (i : Item) : ∃ c t, i.text = c :: t ∧ Starts c := by
  cases i with
  | quoted content plain => exact ⟨34, _, rfl, by decide, by decide, by decide⟩
  | bare digits hex even nonempty =>
    obtain ⟨c, t, rfl⟩ := List.exists_cons_of_ne_nil nonempty
    exact ⟨c, t, rfl, starts_of_isDigit (hex c List.mem_cons_self)⟩
  | prefixed digits hex even => exact ⟨48, _, rfl, by decide, by decide, by decide⟩

theorem Entry.text_head (e : Entry) : ∃ c t, e.text = c :: t ∧ c ≠ 32 := by
  obtain ⟨times, item⟩ := e
  cases times with
  | none =>
    obtain ⟨c, t, ht, hc⟩ := item.text_head
    exact ⟨c, t, ht, hc.1⟩
  | some n => exact ⟨114, _, rfl, by decide⟩

end LearnFramework.Eth
