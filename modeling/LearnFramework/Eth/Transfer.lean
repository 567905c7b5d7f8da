import LearnFramework.Eth.PutDecodedDatum

/-!
# Transfers in a row

`RandomizedTransfer` cuts the source into pieces of random length, but hands them on in
order. So a source that is filled and emptied in turns arrives as the concatenation
of what was put into it, as soon as a transfer finishes.
-/

namespace LearnFramework.Eth

/-- What a user does with the source. -/
inductive Use where
  | put (bytes : List UInt8)
  | transfer (finish : Bool)
  deriving DecidableEq, Repr

def Use.bytes : Use → List UInt8
  | .put bytes => bytes
  | .transfer _ => []

def perform (io : Io) : Use → Except Stop Io
  | .put bytes => .ok { io with q := io.q ++ bytes }
  | .transfer finish => randomizedTransfer io finish

def performAll : List Use → Io → Except Stop Io
  | [], io => .ok io
  | u :: us, io => (perform io u).bind (performAll us)

theorem perform_ok (u : Use) (io : Io) : ∃ io', perform io u = .ok io' ∧
    io'.stream = io.stream ++ u.bytes := by
  cases u with
  | put bytes => exact ⟨_, rfl, (List.append_assoc _ _ _).symm⟩
  | transfer finish =>
    obtain ⟨io', h, hs, -⟩ := randomizedTransfer_ok io finish
    exact ⟨io', h, hs.trans (List.append_nil _).symm⟩

/-- Nothing is lost or reordered on the way. -/
theorem performAll_ok (us : List Use) (io : Io) : ∃ io', performAll us io = .ok io' ∧
    io'.stream = io.stream ++ us.flatMap Use.bytes := by
  induction us generalizing io with
  | nil => exact ⟨io, rfl, by simp⟩
  | cons u us ih =>
    obtain ⟨io₁, h₁, hs₁⟩ := perform_ok u io
    obtain ⟨io₂, h₂, hs₂⟩ := ih io₁
    refine ⟨io₂, ?_, ?_⟩
    · rw [performAll, h₁]
      exact h₂
    · rw [hs₂, hs₁, List.flatMap_cons, List.append_assoc]

theorem performAll_append (us vs : List Use) (io : Io) :
    performAll (us ++ vs) io = (performAll us io).bind (performAll vs) := by
  induction us generalizing io with
  | nil => rfl
  | cons u us ih =>
    rw [List.cons_append, performAll, performAll]
    cases perform io u with
    | error e => rfl
    | ok io₁ => exact ih io₁

/-- **A transfer is a lossless move**, with any draws: it ends without an empty range or
a byte outside of `buf`, moves a piece from the front of the source behind the target, and
leaves nothing, or at most 4096 bytes. What a source filled and emptied in turns
delivers does not depend on the draws. -/
theorem transfer_lossless (io : Io) (finish : Bool) (us : List Use) :
    (∃ io' moved, (∀ fuel, io.q.length ≤ fuel → transferLoop finish fuel io = .ok io') ∧
      io'.target = io.target ++ moved ∧ moved ++ io'.q = io.q ∧
      io'.q.length ≤ if finish then 0 else 4096) ∧
    ∃ io', performAll (us ++ [.transfer true]) io = .ok io' ∧ io'.q = [] ∧
      io'.target = io.target ++ io.q ++ us.flatMap Use.bytes := by
  refine ⟨transferLoop_eq finish io, ?_⟩
  obtain ⟨io₁, h₁, hs₁⟩ := performAll_ok us io
  obtain ⟨io₂, h₂, hs₂, hq⟩ := randomizedTransfer_ok io₁ true
  refine ⟨io₂, ?_, hq rfl, ?_⟩
  · rw [performAll_append, h₁]
    change (randomizedTransfer io₁ true).bind (performAll []) = _
    rw [h₂]
    rfl
  · have hs := hs₂.trans hs₁
    rw [Io.stream, hq rfl, List.append_nil] at hs
    exact hs

end LearnFramework.Eth
