import LearnFramework.Eth.Scan
import Mathlib.Logic.Relation

/-!
# Termination of the datum parser

A turn of the outer loop that goes on shortens the text, except on spaces alone,
which it leaves as they are; and the repeat loop counts down to 0 from a count that
is not negative, but runs over the least `int` from one that is. So the parser
finishes exactly on the texts whose scan meets neither (`terminates_iff`).
-/

namespace LearnFramework.Eth

open Relation

/-- A turn of the outer loop goes on from a text to the next one. -/
def GoesOn (cryptopp : CryptoPP) (s1 rest : List UInt8) : Prop :=
  s1 ≠ [] ∧ ∃ io io', turn cryptopp s1 io = .ok (some rest, io')

/-- `PutDecodedDatumInto` finishes, normally or by throwing, and each turn that goes on
shortens the text. -/
structure Terminates (cryptopp : CryptoPP) (s1 : List UInt8) : Prop where
  finishes : ∃ fuel, ∀ target draws,
    (∃ out, putDecodedDatumInto cryptopp fuel s1 target draws = .ok out) ∨
      putDecodedDatumInto cryptopp fuel s1 target draws = .error .outOfRange
  shortens : ∀ s rest, ReflTransGen (GoesOn cryptopp) s1 s → GoesOn cryptopp s rest →
    rest.length < s.length

/-- No turn meets spaces alone, or a repeat loop with a negative count. -/
def Clean (cryptopp : CryptoPP) (s1 : List UInt8) : Prop :=
  ∀ s, ReflTransGen (GoesOn cryptopp) s1 s →
    (s ≠ [] → ∃ c ∈ s, c ≠ 32) ∧
      ∀ bytes times rest, scan cryptopp s = .ok (.item bytes times rest) → 0 ≤ times

variable {cryptopp : CryptoPP}

/-! ## Turns -/

theorem goesOn_iff {s1 rest : List UInt8} :
    GoesOn cryptopp s1 rest ↔
      s1 ≠ [] ∧ ∃ bytes times, 0 ≤ times ∧ scan cryptopp s1 = .ok (.item bytes times rest) := by
  refine and_congr_right fun _ => ?_
  constructor
  · rintro ⟨io, io', hturn⟩
    rw [turn_eq] at hturn
    cases hscan : scan cryptopp s1 with
    | error e =>
      rw [hscan] at hturn
      cases hturn
    | ok v =>
      cases v with
      | final bytes =>
        rw [hscan] at hturn
        cases hturn
      | item bytes times r =>
        by_cases hneg : times < 0
        · simp [hscan, Except.bind, Except.map, putRepeated, hneg] at hturn
        · obtain ⟨io₁, hput, -⟩ := putRepeated_ok bytes hneg io
          simp only [hscan, Except.bind, Except.map, hput, Except.ok.injEq, Prod.mk.injEq,
            Option.some.injEq] at hturn
          exact ⟨bytes, times, Int.not_lt.mp hneg, by rw [hturn.1]⟩
  · rintro ⟨bytes, times, hpos, hscan⟩
    obtain ⟨io', hput, -⟩ := putRepeated_ok bytes (Int.not_lt.mpr hpos) ⟨[], [], id, 0⟩
    exact ⟨⟨[], [], id, 0⟩, io', by simp only [turn_eq, hscan, Except.bind, hput, Except.map]⟩

/-! ## Throws -/

theorem bind_error {α β : Type} {x : Except Stop α} {f : α → Except Stop β} {e : Stop}
    (h : (x >>= f) = .error e) : x = .error e ∨ ∃ a, x = .ok a ∧ f a = .error e := by
  cases x with
  | error e' => exact Or.inl (congrArg Except.error (Except.error.inj h))
  | ok a => exact Or.inr ⟨a, rfl, h⟩

theorem substr_error {s : List UInt8} {pos : Nat} {n : Option Nat} {e : Stop}
    (h : substr s pos n = .error e) : e = .outOfRange := by
  unfold substr at h
  split_ifs at h with hpos
  · exact (Except.error.inj h).symm
  · cases n with
    | none => cases h
    | some n => cases h

theorem takeRepeat_error {s : List UInt8} {e : Stop} (h : takeRepeat s = .error e) :
    e = .outOfRange := by
  rw [takeRepeat] at h
  split_ifs at h
  rcases bind_error h with hsub | ⟨rest, -, hok⟩
  · exact substr_error hsub
  · cases hok

/-- Each form of a token is two calls of `substr`. -/
theorem token_error {s : List UInt8} {e : Stop} (h : token cryptopp s = .error e) :
    e = .outOfRange := by
  rw [token] at h
  split_ifs at h
  all_goals
    rcases bind_error h with hsub | ⟨a, -, h⟩
    · exact substr_error hsub
    · rcases bind_error h with hsub | ⟨b, -, hok⟩
      · exact substr_error hsub
      · cases hok

/-- Only `substr` throws. -/
theorem scan_error {s1 : List UInt8} {e : Stop} (h : scan cryptopp s1 = .error e) :
    e = .outOfRange := by
  rw [scan] at h
  split_ifs at h
  rcases bind_error h with hrepeat | ⟨⟨times, s⟩, -, h⟩
  · exact takeRepeat_error hrepeat
  · simp only at h
    split_ifs at h
    rcases bind_error h with htoken | ⟨q, -, hok⟩
    · exact token_error htoken
    · cases hok

/-! ## The end of a scan -/

/-- The scan comes to an end, normally or by throwing. -/
def Ends (cryptopp : CryptoPP) (fuel : Nat) (s1 : List UInt8) : Prop :=
  (∃ bytes, deliver cryptopp fuel s1 = .ok bytes) ∨ deliver cryptopp fuel s1 = .error .outOfRange

theorem ends_iff (fuel : Nat) (s1 : List UInt8) :
    Ends cryptopp fuel s1 ↔ ∀ target draws,
      (∃ out, putDecodedDatumInto cryptopp fuel s1 target draws = .ok out) ∨
        putDecodedDatumInto cryptopp fuel s1 target draws = .error .outOfRange := by
  simp only [Ends, putDecodedDatumInto_eq]
  cases deliver cryptopp fuel s1 with
  | error e => simp [Except.map]
  | ok bytes => simp [Except.map]

/-- Nothing goes on from the empty text. -/
theorem clean_nil : Clean cryptopp [] := by
  intro s hs
  rcases hs.cases_head with rfl | ⟨s', ⟨hne, -⟩, -⟩
  · refine ⟨fun h => absurd rfl h, fun bytes times rest hscan => ?_⟩
    cases hscan
  · exact absurd rfl hne

theorem Clean.of_goesOn {s1 rest : List UInt8} (h : Clean cryptopp s1)
    (hgo : GoesOn cryptopp s1 rest) : Clean cryptopp rest :=
  fun s hs => h s (.head hgo hs)

/-- A turn that does not go on, of a text that is not only spaces. -/
theorem clean_of_stops {s1 : List UInt8}
    (h : ∀ bytes times rest, scan cryptopp s1 ≠ .ok (.item bytes times rest)) :
    Clean cryptopp s1 := by
  intro s hs
  rcases hs.cases_head with rfl | ⟨s', hgo, -⟩
  · refine ⟨fun hne => ?_, fun bytes times rest hscan => absurd hscan (h _ _ _)⟩
    by_contra hall
    push Not at hall
    exact h _ _ _ (scan_spaces hne hall)
  · obtain ⟨-, bytes, times, -, hscan⟩ := goesOn_iff.mp hgo
    exact absurd hscan (h _ _ _)

/-- A turn that goes on, and leaves a clean text. -/
theorem clean_of_item {s1 bytes rest : List UInt8} {times : Int} (hpos : 0 ≤ times)
    (hscan : scan cryptopp s1 = .ok (.item bytes times rest)) (h : Clean cryptopp rest) :
    Clean cryptopp s1 := by
  intro s hs
  rcases hs.cases_head with rfl | ⟨s', hgo, hs'⟩
  · refine ⟨fun hne => ?_, fun bytes' times' rest' hscan' => ?_⟩
    · by_contra hall
      push Not at hall
      -- the rest is the text itself, which is not clean
      rw [scan_spaces hne hall] at hscan
      cases hscan
      obtain ⟨c, hc, hc32⟩ := (h s1 .refl).1 hne
      exact hc32 (hall c hc)
    · rw [hscan] at hscan'
      cases hscan'
      exact hpos
  · obtain ⟨-, bytes', times', -, hscan'⟩ := goesOn_iff.mp hgo
    rw [hscan] at hscan'
    cases hscan'
    exact h s hs'

/-- By induction on the turns: one that ends is clean. -/
theorem Ends.clean {fuel : Nat} {s1 : List UInt8} (h : Ends cryptopp fuel s1) :
    Clean cryptopp s1 := by
  induction fuel generalizing s1 with
  | zero =>
    by_cases hs : s1 = []
    · rw [hs]
      exact clean_nil
    · simp [Ends, deliver, hs] at h
  | succ fuel ih =>
    by_cases hs : s1 = []
    · rw [hs]
      exact clean_nil
    · cases hscan : scan cryptopp s1 with
      | error e => exact clean_of_stops fun bytes times rest hitem => by simp [hscan] at hitem
      | ok v =>
        cases v with
        | final bytes => exact clean_of_stops fun bytes times rest hitem => by simp [hscan] at hitem
        | item bytes times rest =>
          simp only [Ends, deliver, if_neg hs, hscan, Except.bind] at h
          by_cases hneg : times < 0
          · simp [hneg] at h
          · refine clean_of_item (Int.not_lt.mp hneg) hscan (ih ?_)
            rw [if_neg hneg] at h
            simp only [Ends]
            cases hrest : deliver cryptopp fuel rest with
            | error e => simpa [hrest, Except.map] using h
            | ok out => exact Or.inl ⟨out, rfl⟩

/-- By induction on the length of the text, which bounds the turns. -/
theorem Clean.ends {s1 : List UInt8} (h : Clean cryptopp s1) {fuel : Nat}
    (hf : s1.length ≤ fuel) : Ends cryptopp fuel s1 := by
  induction fuel generalizing s1 with
  | zero =>
    have hs : s1 = [] := List.length_eq_zero_iff.mp (by omega)
    exact Or.inl ⟨[], by simp [deliver, hs]⟩
  | succ fuel ih =>
    by_cases hs : s1 = []
    · exact Or.inl ⟨[], by simp [deliver, hs]⟩
    · obtain ⟨hchar, hcount⟩ := h s1 .refl
      simp only [Ends, deliver, if_neg hs]
      cases hscan : scan cryptopp s1 with
      | error e => exact Or.inr (congrArg _ (scan_error hscan))
      | ok v =>
        cases v with
        | final bytes => exact Or.inl ⟨bytes, rfl⟩
        | item bytes times rest =>
          have hpos := hcount _ _ _ hscan
          have hlt := scan_shortens (hchar hs) hscan
          have hgo : GoesOn cryptopp s1 rest := goesOn_iff.mpr ⟨hs, bytes, times, hpos, hscan⟩
          simp only [Except.bind, if_neg (Int.not_lt.mpr hpos)]
          rcases ih (h.of_goesOn hgo) (by omega) with ⟨out, hout⟩ | hthrow
          · exact Or.inl ⟨repeated bytes times ++ out, by rw [hout]; rfl⟩
          · exact Or.inr (by rw [hthrow]; rfl)

/-- **Termination.** -/
theorem terminates_iff (cryptopp : CryptoPP) (s1 : List UInt8) :
    Terminates cryptopp s1 ↔ Clean cryptopp s1 := by
  constructor
  · rintro ⟨⟨fuel, hfin⟩, -⟩
    exact Ends.clean ((ends_iff fuel s1).mpr hfin)
  · intro h
    refine ⟨⟨s1.length, (ends_iff _ _).mp (h.ends le_rfl)⟩, fun s rest hs hgo => ?_⟩
    obtain ⟨hne, bytes, times, -, hscan⟩ := goesOn_iff.mp hgo
    exact scan_shortens ((h s hs).1 hne) hscan

/-- One space: no turn takes it off. -/
theorem space_never_ends : ¬Terminates ⟨Hex.decode⟩ [32] := by
  rintro ⟨⟨fuel, hfin⟩, -⟩
  have hclean := Ends.clean ((ends_iff fuel [32]).mpr hfin)
  obtain ⟨c, hc, hne⟩ := (hclean [32] .refl).1 (by simp)
  exact hne (List.mem_singleton.mp hc)

/-- `r-1 00`: the count runs below the least `int`. -/
example : ¬Terminates ⟨Hex.decode⟩ [114, 45, 49, 32, 48, 48] := by
  rintro ⟨⟨fuel, hfin⟩, -⟩
  have hclean := Ends.clean ((ends_iff fuel _).mpr hfin)
  have hscan : scan ⟨Hex.decode⟩ [114, 45, 49, 32, 48, 48] = .ok (.item [0] (-1) []) := rfl
  exact absurd ((hclean _ .refl).2 _ _ _ hscan) (by decide)

end LearnFramework.Eth
