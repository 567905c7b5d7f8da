import LearnFramework.Lib.PollLoop
import LearnFramework.Tracker.PeerServer

/-!
# The DHT server, and the life of a server

`DhtServer` of `learntorrent`: its constructor and its `threadFun`. The decoder of
libtorrent is a parameter. A datagram that it accepts is a request; one that it rejects is
logged, and any error of a receive ends the thread.

`PeerServer` and `DhtServer` are both servers with a polling thread (`PollLoops`). Their
`Start`, `Stop` and `Num` functions own one server at a time. The destructor of
`DhtServer` calls the `cancel` that throws, which it does for a socket that was never
opened; `~PeerServer` ignores the error.
-/

namespace LearnFramework.Tracker

open Machines PollLoops

variable {E : Type*}

/-- The lines that the server prints. -/
inductive DhtLine (E : Type*) where
  | openFailed (ec : ErrorCode)
  | bindFailed (ec : ErrorCode)
  | localEndpointFailed (ec : ErrorCode)
  | initialized (port : Int)
  | receiveFailed (ec : ErrorCode)
  | message (msg : E)
  | decodeFailed (what : String)
  deriving DecidableEq, Repr

structure DhtServer (E : Type*) where
  requests : Int32
  port : Int
  /-- the socket is open -/
  opened : Bool
  /-- the thread has been started -/
  thread : Bool
  log : List (DhtLine E)
  deriving DecidableEq, Repr

/-- What a receive of at most 2000 bytes completes with. -/
abbrev Receive := Except ErrorCode { datagram : List UInt8 // datagram.length ≤ 2000 }

namespace DhtServer

def print (s : DhtServer E) (line : DhtLine E) : DhtServer E := { s with log := s.log ++ [line] }

/-- The constructor. With an error there is no thread. -/
def new (setup : Setup) : DhtServer E :=
  let s : DhtServer E := ⟨0, 0, false, false, []⟩
  match setup.opened with
  | some ec => s.print (.openFailed ec)
  | none =>
    let s := { s with opened := true }
    match setup.bound with
    | some ec => s.print (.bindFailed ec)
    | none =>
      match setup.localEndpoint with
      | .error ec => s.print (.localEndpointFailed ec)
      | .ok port =>
        let s := { s with port := port.toNat }
        { s.print (.initialized s.port) with thread := true }

variable (bdecode : List UInt8 → Except String E)

/-- The `try` block and its handler. -/
def decode (s : DhtServer E) (datagram : List UInt8) : DhtServer E :=
  match bdecode datagram with
  | .ok msg => { s.print (.message msg) with requests := s.requests + 1 }
  | .error what => s.print (.decodeFailed what)

/-- A turn of the loop that does not return. -/
def turn (s : DhtServer E) : Receive → DhtServer E
  | .ok datagram => s.decode bdecode datagram.1
  | .error _ => s

/-- The line in front of the return. -/
def finish (s : DhtServer E) : Receive → DhtServer E
  | .ok _ => s
  | .error ec => s.print (.receiveFailed ec)

def numHits (s : DhtServer E) : Int32 := s.requests

end DhtServer

/-- The errors at which `threadFun` returns: all of them. -/
def Receive.ends : Receive → Bool
  | .ok _ => false
  | .error _ => true

def dhtServer (bdecode : List UInt8 → Except String E) : Owned Setup (DhtServer E) Receive where
  ends := Receive.ends
  turn := DhtServer.turn bdecode
  finish := DhtServer.finish
  aborted := .error .operationAborted
  badSocket := .error .badDescriptor
  ends_aborted := rfl
  ends_badSocket := rfl
  new := DhtServer.new
  started := DhtServer.thread
  destructible := DhtServer.opened

def peerServer : Owned PeerSetup PeerServer Accept where
  ends := Accept.ends
  turn := PeerServer.turn
  finish s _ := s
  aborted := some .operationAborted
  badSocket := some .badDescriptor
  ends_aborted := rfl
  ends_badSocket := rfl
  new := PeerServer.new
  started := PeerServer.thread
  destructible _ := true

/-- `StartDht`, `StopDht` and the threads of the servers; `current` is `s_dht`. -/
def dht (bdecode : List UInt8 → Except String E) :
    Machine (Owner (DhtServer E) Receive) (OwnerAct Setup Receive) := owner (dhtServer bdecode)

/-- `StartPeer`, `StopPeer` and the threads of the servers; `current` is `s_peer`. -/
def peer : Machine (Owner PeerServer Accept) (OwnerAct PeerSetup Accept) := owner peerServer

/-- `NumDhtHits`. -/
def numDhtHits (s : Owner (DhtServer E) Receive) : Int32 :=
  s.current.elim 0 fun l => l.state.numHits

/-! ## The requests -/

variable {bdecode : List UInt8 → Except String E}

/-- The datagrams in front of the first error that the decoder accepts. -/
def messages (bdecode : List UInt8 → Except String E) : List Receive → Nat
  | .ok datagram :: cs =>
    (if (bdecode datagram.1).isOk then 1 else 0) + messages bdecode cs
  | _ => 0

theorem decode_requests (s : DhtServer E) (datagram : List UInt8) :
    (s.decode bdecode datagram).requests =
      s.requests + Int32.ofNat (if (bdecode datagram).isOk then 1 else 0) := by
  unfold DhtServer.decode
  cases bdecode datagram with
  | ok msg => rfl
  | error what => exact (Int32.add_zero _).symm

theorem decode_opened (s : DhtServer E) (datagram : List UInt8) :
    (s.decode bdecode datagram).opened = s.opened := by
  unfold DhtServer.decode
  cases bdecode datagram <;> rfl

theorem dht_run_requests (cs : List Receive) (s : DhtServer E) :
    ((dhtServer bdecode).run s cs).1.requests = s.requests + Int32.ofNat (messages bdecode cs) := by
  induction cs generalizing s with
  | nil => exact (Int32.add_zero _).symm
  | cons c cs ih =>
    cases c with
    | error ec => exact (Int32.add_zero _).symm
    | ok datagram =>
      change ((dhtServer bdecode).run (s.decode bdecode datagram.1) cs).1.requests = _
      rw [ih, decode_requests, messages, Int32.ofNat_add, Int32.add_assoc]

theorem dht_run_opened (cs : List Receive) (s : DhtServer E) :
    ((dhtServer bdecode).run s cs).1.opened = s.opened := by
  induction cs generalizing s with
  | nil => rfl
  | cons c cs ih =>
    cases c with
    | error ec => rfl
    | ok datagram => exact (ih _).trans (decode_opened s datagram.1)

theorem dht_run_ended (cs : List Receive) (s : DhtServer E) :
    ((dhtServer bdecode).run s cs).2 = true ↔ ∃ c ∈ cs, c.ends = true := by
  induction cs generalizing s with
  | nil => simp [Server.run]
  | cons c cs ih =>
    cases c with
    | error ec => exact iff_of_true rfl ⟨_, List.mem_cons_self, rfl⟩
    | ok datagram =>
      change ((dhtServer bdecode).run (s.decode bdecode datagram.1) cs).2 = true ↔ _
      rw [ih, List.exists_mem_cons_iff]
      simp [Receive.ends]

theorem dht_new_requests (setup : Setup) : (DhtServer.new setup : DhtServer E).requests = 0 := by
  unfold DhtServer.new
  split
  · rfl
  · split
    · rfl
    · split <;> rfl

theorem dht_new_opened (setup : Setup) :
    (DhtServer.new setup : DhtServer E).opened = setup.opened.isNone := by
  unfold DhtServer.new
  cases setup.opened with
  | some ec => rfl
  | none =>
    dsimp only
    split
    · rfl
    · split <;> rfl

section

variable {l : Loop (DhtServer E) Receive} {setup : Setup}

theorem faithful_requests (h : Faithful (dhtServer bdecode).toServer (.new setup) l) :
    l.state.requests = Int32.ofNat (messages bdecode l.seen) := by
  have hrun : ((dhtServer bdecode).run (.new setup) l.seen).1.requests = _ :=
    dht_run_requests l.seen _
  rw [dht_new_requests, Int32.zero_add, h] at hrun
  exact hrun

theorem faithful_ended (h : Faithful (dhtServer bdecode).toServer (.new setup) l) :
    l.spot.isLeft = true ↔ ∃ c ∈ l.seen, c.ends = true := by
  have hrun : ((dhtServer bdecode).run (.new setup) l.seen).2 = true ↔ _ :=
    dht_run_ended l.seen _
  rw [h] at hrun
  exact hrun

theorem faithful_opened (h : Faithful (dhtServer bdecode).toServer (.new setup) l) :
    l.state.opened = setup.opened.isNone := by
  have hrun : ((dhtServer bdecode).run (.new setup) l.seen).1.opened = _ :=
    dht_run_opened l.seen _
  rw [dht_new_opened, h] at hrun
  exact hrun

/-- The socket could not be opened. -/
theorem not_opened_iff (h : Faithful (dhtServer bdecode).toServer (.new setup) l) :
    l.state.opened = false ↔ ∃ ec, setup.opened = some ec := by
  rw [faithful_opened h, ← Option.isSome_iff_exists]
  cases setup.opened <;> simp

end

/-- **The count of the DHT server.** Whatever servers were started and stopped before, and
wherever their threads are, `NumDhtHits` is the number of datagrams since `StartDht` that
the decoder accepts, in 32 bits; the thread has returned exactly if a receive has failed. A
destructor ends the program exactly for a server whose socket could not be opened. -/
theorem dht_hits (bdecode : List UInt8 → Except String E) (s : Owner (DhtServer E) Receive)
    (hs : (dht bdecode).Reachable s) :
    (numDhtHits s).toInt =
      (((s.current.elim 0 fun l => messages bdecode l.seen) : Nat) : Int).bmod (2 ^ 32) ∧
    (∀ l, s.current = some l → (l.spot.isLeft = true ↔ ∃ c ∈ l.seen, c.ends = true)) ∧
    (∀ l d, s.dying = some (l, d) → ∃ setup,
      Faithful (dhtServer bdecode).toServer (.new setup) l ∧
        ∀ s', d = .cancelling → (dht bdecode).step s .destroy = some s' →
          (s'.terminated = true ↔ ∃ ec, setup.opened = some ec)) ∧
    (s.terminated = true → ∃ l setup ec, s.dying = some (l, .cancelling) ∧
      Faithful (dhtServer bdecode).toServer (.new setup) l ∧ setup.opened = some ec) := by
  have hsound := sound_of_reachable hs
  refine ⟨?_, fun l hl => ?_, fun l d hd => ?_, fun ht => ?_⟩
  · cases hc : s.current with
    | none => simp [numDhtHits, hc]
    | some l =>
      obtain ⟨setup, hf⟩ := hsound.current l hc
      rw [numDhtHits, hc]
      change l.state.requests.toInt = ((messages bdecode l.seen : Nat) : Int).bmod (2 ^ 32)
      rw [faithful_requests hf]
      exact Int32.toInt_ofNat'
  · obtain ⟨setup, hf⟩ := hsound.current l hl
    exact faithful_ended hf
  · obtain ⟨setup, hf⟩ := hsound.dying l d hd
    refine ⟨setup, hf, fun s' hcancel hstep => ?_⟩
    subst hcancel
    rw [← not_opened_iff hf]
    have hdestroy : s.step (dhtServer bdecode) .destroy = some s' := hstep
    obtain ⟨ht, hcases⟩ := ownerStep_cases hdestroy
    cases hcases with
    | cancel k hd' hdes =>
      cases hd.symm.trans hd'
      exact iff_of_false (by simp [ht]) (fun hclosed => by cases hclosed.symm.trans hdes)
    | terminate k hd' hdes =>
      cases hd.symm.trans hd'
      exact iff_of_true rfl hdes
    | close k hd' => cases hd.symm.trans hd'
    | join k hd' hj => cases hd.symm.trans hd'
  · obtain ⟨l, hd, hdes⟩ := hsound.terminated ht
    obtain ⟨setup, hf⟩ := hsound.dying l _ hd
    obtain ⟨ec, hec⟩ := (not_opened_iff hf).mp hdes
    exact ⟨l, setup, ec, hd, hf, hec⟩

/-- A decoder that knows the empty list. -/
def decodeEmptyList (datagram : List UInt8) : Except String Unit :=
  if datagram = [108, 101] then .ok () else .error "expected value"

/-- One datagram is accepted, the next one is not. -/
theorem dht_hits_one : ∃ s : Owner (DhtServer Unit) Receive,
    (numDhtHits s).toInt =
      (((s.current.elim 0 fun l => messages decodeEmptyList l.seen) : Nat) : Int).bmod (2 ^ 32) ∧
    (numDhtHits s).toInt = 1 := by
  have h : ((dht decodeEmptyList).run (dht decodeEmptyList).init
      [.start ⟨none, none, .ok 6881⟩, .thread .start,
        .thread (.complete (.ok ⟨[108, 101], by decide⟩)), .thread .poll, .thread .check,
        .thread .start, .thread (.complete (.ok ⟨[120], by decide⟩)), .thread .poll,
        .thread .check]).map (fun s => decide ((numDhtHits s).toInt = 1)) = some true := by decide
  obtain ⟨s, hs, hp⟩ := Machine.reachable_of_run h
  exact ⟨s, (dht_hits decodeEmptyList s hs).1, of_decide_eq_true hp⟩

/-! ## Stopping -/

/-- The loop of `PeerServer` is the one of a polling server. -/
theorem peer_run_eq (completions : List Accept) (s : PeerServer) :
    peerServer.run s completions = s.threadFun completions := by
  induction completions generalizing s with
  | nil => rfl
  | cons ec completions ih =>
    change (if ec.ends = true then (s, true) else peerServer.run (s.turn ec) completions) = _
    rw [ih]
    rfl

/-- **`StopDht` and `StopPeer` return.** Once the destructor has closed the socket, the
thread of the server takes at most five steps and looks at two results at most, one of
them the error that ends it; until it has returned it has a step of its own to take,
whatever else runs. What a peer server has done, also one that is destroyed, is
`threadFun` on the results that it has seen, and no destructor of a peer server ends the
program. -/
theorem stop_returns (bdecode : List UInt8 → Except String E) :
    (∀ (s s' : Owner (DhtServer E) Receive) (l : Loop (DhtServer E) Receive)
        (as : List (OwnerAct Setup Receive)), (dht bdecode).Reachable s →
      s.dying = some (l, .joining) → (inDestructor (dhtServer bdecode)).run s as = some s' →
        as.countP OwnerAct.isDyingThread ≤ 5 ∧
          ∀ l' d, s'.dying = some (l', d) → l'.seen.length ≤ l.seen.length + 2 ∧
            (l'.spot.joined = true ∨
              ∃ a l'', a.ofThread = true ∧
                l'.step (dhtServer bdecode).toServer a = some l'')) ∧
    (∀ (s s' : Owner PeerServer Accept) (l : Loop PeerServer Accept)
        (as : List (OwnerAct PeerSetup Accept)), peer.Reachable s →
      s.dying = some (l, .joining) → (inDestructor peerServer).run s as = some s' →
        as.countP OwnerAct.isDyingThread ≤ 5 ∧
          ∀ l' d, s'.dying = some (l', d) → l'.seen.length ≤ l.seen.length + 2 ∧
            (l'.spot.joined = true ∨
              ∃ a l'', a.ofThread = true ∧ l'.step peerServer.toServer a = some l'')) ∧
    ∀ s : Owner PeerServer Accept, peer.Reachable s → s.terminated = false ∧
      ∀ l, (s.current = some l ∨ ∃ d, s.dying = some (l, d)) → ∃ setup,
        (PeerServer.new setup).threadFun l.seen = (l.state, l.spot.isLeft) := by
  refine ⟨fun s s' l as hs hd h => join_returns hs hd h,
    fun s s' l as hs hd h => join_returns hs hd h, fun s hs => ?_⟩
  have hsound := sound_of_reachable hs
  refine ⟨?_, fun l hl => ?_⟩
  · by_contra ht
    obtain ⟨l, -, hdes⟩ := hsound.terminated (Bool.not_eq_false _ ▸ ht)
    cases hdes
  · have hmade : peerServer.Made l := by
      rcases hl with hcurrent | ⟨d, hdying⟩
      · exact hsound.current l hcurrent
      · exact hsound.dying l d hdying
    obtain ⟨setup, hf⟩ := hmade
    exact ⟨setup, (peer_run_eq l.seen _).symm.trans hf⟩

/-- A DHT server is stopped while a receive is outstanding. -/
theorem stop_returns_receiving :
    ∃ (s s' : Owner (DhtServer Unit) Receive) (l : Loop (DhtServer Unit) Receive),
      s.dying = some (l, .joining) ∧ s'.dying.isSome = true ∧
        ∀ l' d, s'.dying = some (l', d) → l'.seen.length ≤ l.seen.length + 2 ∧
          (l'.spot.joined = true ∨ ∃ a l'', a.ofThread = true ∧
            l'.step (dhtServer decodeEmptyList).toServer a = some l'') := by
  have h : (((dht decodeEmptyList).run (dht decodeEmptyList).init
      [.start ⟨none, none, .ok 6881⟩, .thread .start, .stop, .destroy, .destroy]).bind fun s =>
        ((inDestructor (dhtServer decodeEmptyList)).run s
          [.dyingThread .poll, .dyingThread .check]).map fun s' => (s, s')).map
            (fun p => decide ((p.1.dying.map Prod.snd) = some .joining ∧
              p.2.dying.isSome = true)) = some true := by decide
  obtain ⟨p, hp, hd⟩ := Option.map_eq_some_iff.mp h
  obtain ⟨s, hs, hrun⟩ := Option.bind_eq_some_iff.mp hp
  obtain ⟨s', hs', rfl⟩ := Option.map_eq_some_iff.mp hrun
  obtain ⟨hjoin, hdying⟩ := of_decide_eq_true hd
  obtain ⟨⟨l, d⟩, hl, rfl⟩ := Option.map_eq_some_iff.mp hjoin
  exact ⟨s, s', l, hl, hdying, ((stop_returns decodeEmptyList).1 s s' l _ ⟨_, hs⟩ hl hs').2⟩

end LearnFramework.Tracker
