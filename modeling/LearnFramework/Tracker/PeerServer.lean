import LearnFramework.Tracker.UdpTracker

/-!
# The peer server

The constructor of `PeerServer` and its `threadFun`, over the completions of the
accepts. An accept that fails is logged and then counted all the same, unless its error
ends the loop; so the count is right in the runs without such a failure.
-/

namespace LearnFramework.Tracker

/-- The lines that the server prints. -/
inductive PeerLine where
  | openFailed (ec : ErrorCode)
  | bindFailed (ec : ErrorCode)
  | localEndpointFailed (ec : ErrorCode)
  | listenFailed (ec : ErrorCode)
  | initialized (port : Int)
  | acceptFailed (ec : ErrorCode)
  | incoming
  deriving DecidableEq, Repr

/-- What the calls of the constructor on the acceptor give. -/
structure PeerSetup where
  opened : Option ErrorCode
  bound : Option ErrorCode
  localEndpoint : Except ErrorCode UInt16
  listening : Option ErrorCode

structure PeerServer where
  requests : Int32
  port : Int
  /-- the thread has been started -/
  thread : Bool
  log : List PeerLine
  deriving DecidableEq, Repr

/-- What an accept completes with; `none` is a success. -/
abbrev Accept := Option ErrorCode

/-- The errors at which `threadFun` returns. -/
def Accept.ends : Accept → Bool
  | some .operationAborted => true
  | some .badDescriptor => true
  | _ => false

namespace PeerServer

def print (s : PeerServer) (line : PeerLine) : PeerServer := { s with log := s.log ++ [line] }

/-- The constructor. It goes on after an error of `listen`. -/
def new (setup : PeerSetup) : PeerServer :=
  let s : PeerServer := ⟨0, 0, false, []⟩
  match setup.opened with
  | some ec => s.print (.openFailed ec)
  | none =>
    match setup.bound with
    | some ec => s.print (.bindFailed ec)
    | none =>
      match setup.localEndpoint with
      | .error ec => s.print (.localEndpointFailed ec)
      | .ok port =>
        let s := { s with port := port.toNat }
        let s := setup.listening.elim s fun ec => s.print (.listenFailed ec)
        { s.print (.initialized s.port) with thread := true }

/-- A turn of the loop that does not return. -/
def turn (s : PeerServer) (ec : Accept) : PeerServer :=
  let s := ec.elim s fun ec => s.print (.acceptFailed ec)
  { s.print .incoming with requests := s.requests + 1 }

/-- The loop, with the completions in order; it has returned or waits for the next one. -/
def threadFun (s : PeerServer) : List Accept → PeerServer × Bool
  | [] => (s, false)
  | ec :: completions => if ec.ends then (s, true) else (s.turn ec).threadFun completions

def numHits (s : PeerServer) : Int32 := s.requests

end PeerServer

/-- `NumPeerHits`, on the contents of `s_peer`. -/
def numPeerHits : Option PeerServer → Int32
  | some peer => peer.numHits
  | none => 0

/-- The completions in front of the one that ends the loop. -/
def handled (completions : List Accept) : List Accept :=
  completions.takeWhile fun ec => !ec.ends

/-- The count is the number of successes, and the loop ends when it should. -/
structure ExactCount (s : PeerServer) (completions : List Accept) : Prop where
  hits : (numPeerHits (some (s.threadFun completions).1)).toInt = (handled completions).count none
  ended : (s.threadFun completions).2 = true ↔ ∃ ec ∈ completions, ec.ends = true
  uncounted : (s.threadFun completions).2 = true →
    ∀ more, s.threadFun (completions ++ more) = s.threadFun completions

/-! ## The loop -/

namespace PeerServer

theorem turn_requests (s : PeerServer) (ec : Accept) : (s.turn ec).requests = s.requests + 1 := by
  cases ec <;> rfl

/-- Every completion in front of the end is counted. -/
theorem threadFun_requests (completions : List Accept) (s : PeerServer) :
    (s.threadFun completions).1.requests =
      s.requests + Int32.ofNat (handled completions).length := by
  induction completions generalizing s with
  | nil => simp [threadFun, handled]
  | cons ec completions ih =>
    cases hends : ec.ends with
    | true => simp [threadFun, handled, hends]
    | false =>
      have hhandled : handled (ec :: completions) = ec :: handled completions := by
        simp [handled, hends]
      rw [threadFun, hends, if_neg (by simp), ih, turn_requests, hhandled, List.length_cons,
        Int32.ofNat_add, Int32.add_assoc, Int32.add_comm 1]
      rfl

theorem threadFun_ended (completions : List Accept) (s : PeerServer) :
    (s.threadFun completions).2 = true ↔ ∃ ec ∈ completions, ec.ends = true := by
  induction completions generalizing s with
  | nil => simp [threadFun]
  | cons ec completions ih =>
    cases hends : ec.ends with
    | true => simp [threadFun, hends]
    | false => simp [threadFun, hends, ih]

/-- Nothing behind the end is seen. -/
theorem threadFun_append {completions : List Accept} {s : PeerServer}
    (h : (s.threadFun completions).2 = true) (more : List Accept) :
    s.threadFun (completions ++ more) = s.threadFun completions := by
  induction completions generalizing s with
  | nil => cases h
  | cons ec completions ih =>
    cases hends : ec.ends with
    | true => simp [threadFun, hends]
    | false =>
      simp only [threadFun, hends, Bool.false_eq_true, if_false] at h
      simp only [List.cons_append, threadFun, hends, Bool.false_eq_true, if_false, ih h]

theorem new_requests (setup : PeerSetup) : (PeerServer.new setup).requests = 0 := by
  unfold new
  split
  · rfl
  · split
    · rfl
    · split
      · rfl
      · cases setup.listening <;> rfl

end PeerServer

open PeerServer

theorem length_eq_successes_add_errors (completions : List Accept) :
    completions.length = completions.count none + completions.countP Option.isSome := by
  induction completions with
  | nil => rfl
  | cons ec completions ih =>
    cases ec <;> simp [ih] <;> omega

/-- A 32-bit counter of two kinds of events shows the number of the first kind. -/
theorem bmod_add_eq_iff (n m : Nat) :
    ((n + m : Nat) : Int).bmod (2 ^ 32) = n ↔ n < 2 ^ 31 ∧ 2 ^ 32 ∣ m := by
  rw [Int.bmod_def]
  constructor
  · intro h
    split at h <;> omega
  · rintro ⟨hn, hm⟩
    split <;> omega

/-- **The count of the peer** is exact when and only when no accept in front of the end
has failed, or as many as make the counter come round, and the successes fit into it. -/
theorem exactCount_iff (setup : PeerSetup) (completions : List Accept) :
    ExactCount (.new setup) completions ↔
      (handled completions).count none < 2 ^ 31 ∧
        2 ^ 32 ∣ (handled completions).countP Option.isSome := by
  have hhits : (numPeerHits (some ((PeerServer.new setup).threadFun completions).1)).toInt =
      (handled completions).count none ↔ (handled completions).count none < 2 ^ 31 ∧
        2 ^ 32 ∣ (handled completions).countP Option.isSome := by
    rw [numPeerHits, numHits, threadFun_requests, new_requests, Int32.zero_add,
      Int32.toInt_ofNat', length_eq_successes_add_errors]
    exact bmod_add_eq_iff _ _
  rw [← hhits]
  exact ⟨fun h => h.hits, fun h => ⟨h, threadFun_ended _ _, threadFun_append⟩⟩

/-- One failed accept is counted as a hit. -/
theorem failed_accept_counted : ¬∀ completions : List Accept,
    ExactCount (.new ⟨none, none, .ok 6881, none⟩) completions := by
  intro h
  have hhits := (h [some (.other 24)]).hits
  exact absurd hhits (by decide)

end LearnFramework.Tracker
