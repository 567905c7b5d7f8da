import Mathlib.Data.List.Basic
import Mathlib.Data.UInt

/-!
# Hexadecimal text

ASCII text as bytes: the value of a digit, the number that a run of digits
stands for, and the bytes that pairs of digits stand for, with the high nibble
first. Decoding skips what is no digit and drops an unpaired last digit, so it
splits wherever the number of digits before is even (`decode_append`).
-/

namespace Hex

def digit (c : UInt8) : Option Nat :=
  if 48 ≤ c ∧ c ≤ 57 then some (c.toNat - 48)
  else if 65 ≤ c ∧ c ≤ 70 then some (c.toNat - 55)
  else if 97 ≤ c ∧ c ≤ 102 then some (c.toNat - 87)
  else none

def isDigit (c : UInt8) : Bool := (digit c).isSome

/-- The number written with digits, the most significant first. -/
def value (s : List UInt8) : Nat := s.foldl (fun n c => n * 16 + (digit c).getD 0) 0

/-- Pairs of digits to bytes. -/
def pack : List Nat → List UInt8
  | high :: low :: rest => UInt8.ofNat (high * 16 + low) :: pack rest
  | _ => []

def decode (s : List UInt8) : List UInt8 := pack (s.filterMap digit)

theorem pack_append {a : List Nat} (h : a.length % 2 = 0) (b : List Nat) :
    pack (a ++ b) = pack a ++ pack b := by
  induction a using pack.induct with
  | case1 high low rest ih =>
    simp only [List.length_cons] at h
    simp only [List.cons_append, pack, ih (by omega)]
  | case2 a hshort =>
    match a, hshort with
    | [], _ => rfl
    | [_], _ => simp at h
    | high :: low :: rest, hshort => exact absurd rfl (hshort high low rest)

theorem pack_length (a : List Nat) : (pack a).length = a.length / 2 := by
  induction a using pack.induct with
  | case1 high low rest ih =>
    simp only [pack, List.length_cons, ih]
    omega
  | case2 a hshort =>
    match a, hshort with
    | [], _ => rfl
    | [_], _ => simp [pack]
    | high :: low :: rest, hshort => exact absurd rfl (hshort high low rest)

theorem decode_length (s : List UInt8) :
    (decode s).length = (s.filterMap digit).length / 2 := pack_length _

theorem decode_append {s : List UInt8} (h : (s.filterMap digit).length % 2 = 0)
    (t : List UInt8) : decode (s ++ t) = decode s ++ decode t := by
  rw [decode, List.filterMap_append, pack_append h]
  rfl

theorem digit_lt {c : UInt8} {n : Nat} (h : digit c = some n) : n < 16 := by
  simp only [digit, UInt8.le_iff_toNat_le, UInt8.reduceToNat] at h
  split_ifs at h
  all_goals
    simp only [Option.some.injEq] at h
    omega

theorem le_toNat_of_isDigit {c : UInt8} (h : isDigit c = true) : 48 ≤ c.toNat := by
  by_contra hlow
  have h48 : (48 : UInt8).toNat = 48 := rfl
  have h65 : (65 : UInt8).toNat = 65 := rfl
  have h97 : (97 : UInt8).toNat = 97 := rfl
  simp only [isDigit, digit, UInt8.le_iff_toNat_le] at h
  rw [if_neg (by omega), if_neg (by omega), if_neg (by omega)] at h
  cases h

theorem value_lt (s : List UInt8) : value s < 16 ^ s.length := by
  induction s using List.reverseRecOn with
  | nil => simp [value]
  | append_singleton s c ih =>
    have hdigit : (digit c).getD 0 < 16 := by
      cases hc : digit c with
      | none => simp
      | some n => exact digit_lt hc
    simp only [value, List.foldl_append, List.foldl_cons, List.foldl_nil, List.length_append,
      List.length_singleton, pow_succ] at ih ⊢
    omega

/-- Digits are all read. -/
theorem length_filterMap_digit {s : List UInt8} (h : ∀ c ∈ s, isDigit c = true) :
    (s.filterMap digit).length = s.length := by
  induction s with
  | nil => rfl
  | cons c s ih =>
    obtain ⟨d, hd⟩ := Option.isSome_iff_exists.mp (h c List.mem_cons_self)
    simp only [List.filterMap_cons, hd, List.length_cons, Nat.add_right_cancel_iff]
    exact ih fun b hb => h b (List.mem_cons_of_mem _ hb)

/-! ## Bytes to digits -/

/-- The lower-case digit of a number below 16. -/
def nibble (n : Nat) : UInt8 := UInt8.ofNat (if n < 10 then 48 + n else 87 + n)

/-- The digits of bytes, as numbers. -/
def digits (s : List UInt8) : List Nat := s.flatMap fun c => [c.toNat / 16, c.toNat % 16]

@[simp] theorem digits_cons (c : UInt8) (s : List UInt8) :
    digits (c :: s) = c.toNat / 16 :: c.toNat % 16 :: digits s := rfl

theorem length_digits (s : List UInt8) : (digits s).length = 2 * s.length := by
  simp [digits, List.length_flatMap, Nat.mul_comm]

theorem digits_lt {s : List UInt8} : ∀ d ∈ digits s, d < 16 := by
  intro d hd
  obtain ⟨c, -, hd⟩ := List.mem_flatMap.mp hd
  have hc := c.toNat_lt
  rcases List.mem_pair.mp hd with rfl | rfl
  · omega
  · omega

theorem getElem?_digits_even (s : List UInt8) (k : Nat) :
    (digits s)[2 * k]? = s[k]?.map fun c => c.toNat / 16 := by
  induction s generalizing k with
  | nil => simp [digits]
  | cons c s ih =>
    cases k with
    | zero => rfl
    | succ k => simpa [Nat.mul_succ] using ih k

theorem getElem?_digits_odd (s : List UInt8) (k : Nat) :
    (digits s)[2 * k + 1]? = s[k]?.map fun c => c.toNat % 16 := by
  induction s generalizing k with
  | nil => simp [digits]
  | cons c s ih =>
    cases k with
    | zero => rfl
    | succ k => simpa [Nat.mul_succ] using ih k

/-- Two digits for each byte. -/
def encode (s : List UInt8) : List UInt8 :=
  s.flatMap fun c => [nibble (c.toNat / 16), nibble (c.toNat % 16)]

theorem digit_nibble {n : Nat} (h : n < 16) : digit (nibble n) = some n := by
  have hall : ∀ m : Fin 16, digit (nibble m) = some m.val := by decide
  exact hall ⟨n, h⟩

theorem isDigit_encode (s : List UInt8) : ∀ c ∈ encode s, isDigit c = true := by
  intro c hc
  obtain ⟨b, -, hc⟩ := List.mem_flatMap.mp hc
  have hb := b.toNat_lt
  rcases List.mem_pair.mp hc with rfl | rfl
  · simp [isDigit, digit_nibble (show b.toNat / 16 < 16 by omega)]
  · simp [isDigit, digit_nibble (show b.toNat % 16 < 16 by omega)]

@[simp] theorem length_encode (s : List UInt8) : (encode s).length = 2 * s.length := by
  simp [encode, List.length_flatMap, Nat.mul_comm]

theorem decode_encode (s : List UInt8) : decode (encode s) = s := by
  induction s with
  | nil => rfl
  | cons b s ih =>
    have hb := b.toNat_lt
    have hdigits : (encode (b :: s)).filterMap digit =
        b.toNat / 16 :: b.toNat % 16 :: (encode s).filterMap digit := by
      simp [encode, digit_nibble (show b.toNat / 16 < 16 by omega),
        digit_nibble (show b.toNat % 16 < 16 by omega)]
    have hbyte : b.toNat / 16 * 16 + b.toNat % 16 = b.toNat := by omega
    rw [decode, hdigits, pack, hbyte, UInt8.ofNat_toNat]
    exact congrArg _ ih

/-! ## Digits to bytes and back -/

/-- A digit in lower case. -/
def lower (c : UInt8) : UInt8 := (digit c).elim c nibble

theorem decode_cons {c d : UInt8} {a b : Nat} (hc : digit c = some a) (hd : digit d = some b)
    (s : List UInt8) : decode (c :: d :: s) = UInt8.ofNat (a * 16 + b) :: decode s := by
  simp [decode, hc, hd, pack]

theorem encode_cons (b : UInt8) (s : List UInt8) :
    encode (b :: s) = nibble (b.toNat / 16) :: nibble (b.toNat % 16) :: encode s := rfl

/-- Pairs of digits come back in lower case, by induction on the number of pairs. -/
theorem encode_decode {n : Nat} {s : List UInt8} (h : ∀ c ∈ s, isDigit c = true)
    (hlen : s.length = 2 * n) : encode (decode s) = s.map lower := by
  induction n generalizing s with
  | zero =>
    rw [List.length_eq_zero_iff.mp hlen]
    rfl
  | succ n ih =>
    match s, hlen with
    | c :: d :: s, hlen =>
      obtain ⟨a, ha⟩ := Option.isSome_iff_exists.mp (h c (by simp))
      obtain ⟨b, hb⟩ := Option.isSome_iff_exists.mp (h d (by simp))
      have ha16 := digit_lt ha
      have hb16 := digit_lt hb
      have hbyte : (UInt8.ofNat (a * 16 + b)).toNat = a * 16 + b := by
        rw [UInt8.toNat_ofNat']
        omega
      have hrest := ih (s := s) (fun x hx => h x (by simp [hx]))
        (by simpa [Nat.mul_succ] using hlen)
      have hhigh : (a * 16 + b) / 16 = a := by omega
      have hlow : (a * 16 + b) % 16 = b := by omega
      rw [decode_cons ha hb, encode_cons, hbyte, hhigh, hlow, hrest]
      simp [lower, ha, hb]

end Hex
