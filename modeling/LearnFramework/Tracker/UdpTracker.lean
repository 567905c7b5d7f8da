import LearnFramework.Lib.Cursor
import LearnFramework.Lib.Machine

/-!
# The UDP tracker

`UdpTracker` of `learntorrent`, with the part of the io service that it uses. The
io thread runs one handler at a time. A receive that was started is outstanding
until it completes; its completion is then queued behind the other ready
handlers, `stop()` among them once the destructor has posted it. `run` returns
when nothing is outstanding and nothing is ready.

The bytes of a datagram are put into the buffer when its handler runs: there is
one buffer, and nothing reads it between the completion and the handler.

`handled` lists the completions given to `onUdpReceive`, `sent` the calls of
`send_to`, and `log` the lines on the console; no code reads them.
-/

namespace LearnFramework.Tracker

open Machines Bytes

/-! ## Data -/

inductive ErrorCode where
  | operationAborted
  | badDescriptor
  | other (value : Int)
  deriving DecidableEq, Repr

inductive Address where
  | v4 (octets : BitVec 32)
  | v6 (octets : BitVec 128)
  deriving DecidableEq, Repr

def Address.isV6 : Address → Bool
  | .v4 _ => false
  | .v6 _ => true

structure Endpoint where
  address : Address
  port : UInt16
  deriving DecidableEq, Repr

/-- What a receive of at most 2000 bytes completes with. -/
inductive Completion where
  | failed (ec : ErrorCode)
  | received (source : Endpoint) (datagram : List UInt8) (fits : datagram.length ≤ 2000)
  deriving DecidableEq, Repr

inductive Handler where
  | onUdpReceive (c : Completion)
  | stop
  deriving DecidableEq, Repr

/-- The lines that the tracker prints, with the numbers in them. -/
inductive LogLine where
  | readFailed (ec : ErrorCode)
  | tooShort (source : Endpoint)
  | message (bytesTransferred : Nat)
  | connect (source : Endpoint)
  | announce (udpAnnounces : Int32)
  | scrape
  | unknown (action : Nat)
  | sendFailed
  | sentResponse (source : Endpoint)
  | stopping
  | openFailed (ec : ErrorCode)
  | bindFailed (ec : ErrorCode)
  | localEndpointFailed (ec : ErrorCode)
  | initialized (port : Int)
  | runFailed (ec : ErrorCode)
  | exiting
  deriving DecidableEq, Repr

/-- The io thread: not started, about to call `threadFun`, in `ios_.run`, or done. -/
inductive IoThread where
  | none
  | created
  | running
  | left
  deriving DecidableEq, Repr

structure UdpTracker where
  requests : Int32
  port : Int
  thread : IoThread
  udpAnnounces : Int32
  abort : Bool
  /-- `char buffer[2000]` of `threadFun` -/
  buffer : List UInt8
  /-- receives that were started and have not completed -/
  receiving : Nat
  /-- the handlers that `run` will call -/
  ready : List Handler
  /-- the destructor has posted `stop` -/
  posted : Bool
  handled : List Completion
  sent : List (Endpoint × List UInt8)
  log : List LogLine
  deriving DecidableEq

/-! ## The handler -/

/-- `detail::write_uint8(v, ptr)` and its siblings. -/
def uint8 (v : Nat) : Nat × Nat := (1, v)
def uint16 (v : Nat) : Nat × Nat := (2, v)
def uint32 (v : Nat) : Nat × Nat := (4, v)
def uint64 (v : Nat) : Nat × Nat := (8, v)

/-- The fields written in case 0. -/
def connectReply (transactionId : Nat) : List (Nat × Nat) :=
  [uint32 0, uint32 transactionId, uint64 10]

/-- The fields written in case 1. -/
def announceReply (transactionId : Nat) (isV6 : Bool) : List (Nat × Nat) :=
  [uint32 1, uint32 transactionId, uint32 1800, uint32 1, uint32 1] ++
    if isV6 then
      [uint32 0, uint32 0, uint32 0, uint8 1, uint8 3, uint8 3, uint8 7, uint16 1337]
    else [uint8 1, uint8 3, uint8 3, uint8 7, uint16 1337]

namespace UdpTracker

def print (s : UdpTracker) (line : LogLine) : UdpTracker := { s with log := s.log ++ [line] }

/-- `socket_.async_receive_from`. -/
def asyncReceiveFrom (s : UdpTracker) : UdpTracker := { s with receiving := s.receiving + 1 }

/-- `socket_.send_to` of the first `size` bytes of the buffer, and the line after it. -/
def sendTo (s : UdpTracker) (size : Nat) (source : Endpoint) (e : Bool) : UdpTracker :=
  { s with sent := s.sent ++ [(source, s.buffer.take size)] }.print
    (if e then .sendFailed else .sentResponse source)

/-- Write the fields at the start of the buffer and send what was written, or the
first `size` bytes when the source gives a size. -/
def reply (s : UdpTracker) (fields : List (Nat × Nat)) (size : Option Nat) (source : Endpoint)
    (e : Bool) : Option UdpTracker :=
  ((Cursor.start s.buffer).writeAll fields).map fun ptr =>
    { s with buffer := ptr.buffer }.sendTo (size.getD ptr.before.length) source e

/-- The `switch`. Case 1 has no `break`. -/
def dispatch (s : UdpTracker) (action transactionId : Nat) (source : Endpoint) (e : Bool) :
    Option UdpTracker :=
  match action with
  | 0 => (s.print (.connect source)).reply (connectReply transactionId) (some 16) source e
  | 1 =>
    let s := { s with udpAnnounces := s.udpAnnounces + 1 }
    let s := s.print (.announce s.udpAnnounces)
    (s.reply (announceReply transactionId source.address.isV6) none source e).map fun s =>
      s.print .scrape
  | 2 => some (s.print .scrape)
  | _ => some (s.print (.unknown action))

/-- The handler; `e` tells whether `send_to` fails. `none` is an access outside
the buffer. -/
def onUdpReceive (s : UdpTracker) (c : Completion) (e : Bool) : Option UdpTracker :=
  let s := { s with handled := s.handled ++ [c] }
  match c with
  | .failed ec => some (s.print (.readFailed ec))
  | .received source datagram _ =>
    let bytesTransferred := datagram.length
    let s := { s with buffer := datagram ++ s.buffer.drop bytesTransferred }
    if bytesTransferred < 16 then some (s.print (.tooShort source))
    else if s.abort then some s
    else do
      let s := s.print (.message bytesTransferred)
      let ptr := Cursor.start s.buffer
      let (_, ptr) ← ptr.read 8
      let (action, ptr) ← ptr.read 4
      let (transactionId, _) ← ptr.read 4
      let s ← s.dispatch action transactionId source e
      some s.asyncReceiveFrom

/-- `stop`: `cancel` completes what is outstanding with an error. -/
def stop (s : UdpTracker) : UdpTracker :=
  { s with
    abort := true
    receiving := 0
    ready := s.ready ++
      List.replicate s.receiving (Handler.onUdpReceive (.failed .operationAborted))
  }.print .stopping

def numHits (s : UdpTracker) : Int32 := s.requests

end UdpTracker

/-! ## The life of a tracker -/

/-- What the calls of the constructor on the socket give. -/
structure Setup where
  opened : Option ErrorCode
  bound : Option ErrorCode
  localEndpoint : Except ErrorCode UInt16

/-- The constructor. With an error there is no io thread. -/
def UdpTracker.new (setup : Setup) (buffer : List UInt8) : UdpTracker :=
  let s : UdpTracker := ⟨0, 0, .none, 0, false, buffer, 0, [], false, [], [], []⟩
  match setup.opened with
  | some ec => s.print (.openFailed ec)
  | none =>
    match setup.bound with
    | some ec => s.print (.bindFailed ec)
    | none =>
      match setup.localEndpoint with
      | .error ec => s.print (.localEndpointFailed ec)
      | .ok port =>
        { s with port := port.toNat, thread := .created }.print (.initialized port.toNat)

inductive Event where
  /-- the io thread enters `threadFun` -/
  | threadFun
  /-- an outstanding receive completes -/
  | complete (c : Completion)
  /-- `run` calls the first ready handler; `e` tells whether `send_to` fails in it -/
  | handle (e : Bool)
  /-- `run` returns -/
  | runReturns (ec : Option ErrorCode)
  /-- the destructor posts `stop` -/
  | post
  deriving DecidableEq

def UdpTracker.step (s : UdpTracker) : Event → Option UdpTracker
  | .threadFun =>
    match s.thread with
    | .created => some { s with thread := .running }.asyncReceiveFrom
    | _ => none
  | .complete c =>
    if s.thread = .running ∧ 0 < s.receiving then
      some { s with receiving := s.receiving - 1, ready := s.ready ++ [.onUdpReceive c] }
    else none
  | .handle e =>
    match s.thread, s.ready with
    | .running, .onUdpReceive c :: rest => { s with ready := rest }.onUdpReceive c e
    | .running, .stop :: rest => some { s with ready := rest }.stop
    | _, _ => none
  | .runReturns ec =>
    if s.thread = .running ∧ s.receiving = 0 ∧ s.ready = [] then
      some ({ s with thread := .left }.print (ec.elim .exiting .runFailed))
    else none
  | .post => if s.posted then none else some { s with posted := true, ready := s.ready ++ [.stop] }

/-- A tracker; `garbage` is what the buffer holds before the first datagram. -/
def udpTracker (setup : Setup) (garbage : { b : List UInt8 // b.length = 2000 }) :
    Machine UdpTracker Event where
  init := .new setup garbage
  step := UdpTracker.step

/-- `NumUdpAnnounces`, on the contents of `s_udp_tracker`. -/
def numUdpAnnounces : Option UdpTracker → Int32
  | some tracker => tracker.numHits
  | none => 0

/-! ## What the handler does -/

/-- The fields of a request, at their place in the datagram. -/
def action (datagram : List UInt8) : Nat := ofBE ((datagram.drop 8).take 4)

def transactionId (datagram : List UInt8) : Nat := ofBE ((datagram.drop 12).take 4)

namespace UdpTracker

/-- Fields that fit are written over the start of the buffer and sent. -/
theorem reply_eq (s : UdpTracker) (fields : List (Nat × Nat)) (size : Option Nat)
    (source : Endpoint) (e : Bool) (h : width fields ≤ s.buffer.length) :
    s.reply fields size source e =
      some ({ s with buffer := encode fields ++ s.buffer.drop (width fields) }.sendTo
        (size.getD (width fields)) source e) := by
  rw [reply, Cursor.writeAll_eq fields _ h, Option.map_some]
  simp [Cursor.start, Cursor.buffer]

/-- What is sent in reply to a request. -/
def replies (action transactionId : Nat) (source : Endpoint) : List (Endpoint × List UInt8) :=
  match action with
  | 0 => [(source, encode (connectReply transactionId))]
  | 1 => [(source, encode (announceReply transactionId source.address.isV6))]
  | _ => []

theorem replies_fst (action transactionId : Nat) (source : Endpoint) :
    (replies action transactionId source).map Prod.fst =
      if action = 0 ∨ action = 1 then [source] else [] := by
  unfold replies
  split
  · rfl
  · rfl
  · rename_i h0 h1
    rw [if_neg (by tauto)]
    rfl

/-- The effect of the `switch`, for every action. -/
theorem dispatch_eq (s : UdpTracker) (action transactionId : Nat) (source : Endpoint) (e : Bool)
    (h : s.buffer.length = 2000) :
    ∃ b udpAnnounces lines, s.dispatch action transactionId source e =
      some { s with
        buffer := b
        udpAnnounces := udpAnnounces
        sent := s.sent ++ replies action transactionId source
        log := s.log ++ lines } ∧
      b.length = 2000 ∧
      lines.count .scrape = if action = 1 ∨ action = 2 then 1 else 0 := by
  unfold dispatch
  split
  · have hw : width (connectReply transactionId) = 16 := rfl
    let b := encode (connectReply transactionId) ++ s.buffer.drop 16
    refine ⟨b, s.udpAnnounces,
      [.connect source, if e then .sendFailed else .sentResponse source], ?_, ?_, ?_⟩
    · rw [reply_eq _ _ _ _ _ (by simp [print, h, hw])]
      simp [print, sendTo, hw, b, replies]
    · simp [b, h, hw]
    · cases e <;> rfl
  · let fields := announceReply transactionId source.address.isV6
    have hw : width fields ≤ 38 := by
      cases hv : source.address.isV6 <;> simp [fields, hv, announceReply, width, uint32, uint16,
        uint8]
    let b := encode fields ++ s.buffer.drop (width fields)
    refine ⟨b, s.udpAnnounces + 1,
      [.announce (s.udpAnnounces + 1), if e then .sendFailed else .sentResponse source, .scrape],
      ?_, ?_, ?_⟩
    · dsimp only
      rw [reply_eq _ _ _ _ _ (by simp only [print, h]; exact hw.trans (by omega))]
      simp [print, sendTo, replies, b, fields]
    · simp [b, h]
      omega
    · cases e <;> rfl
  · exact ⟨s.buffer, s.udpAnnounces, [.scrape], by simp [print, replies], h, by simp⟩
  · rename_i h0 h1 h2
    refine ⟨s.buffer, s.udpAnnounces, [.unknown action], ?_, h, ?_⟩
    · simp [print, replies]
    · rw [if_neg (by tauto)]
      simp

/-- The ways a handler of a receive ends. -/
inductive Received (s : UdpTracker) : Completion → UdpTracker → Prop
  | failed (ec : ErrorCode) :
      Received s (.failed ec)
        { s with
          handled := s.handled ++ [.failed ec]
          log := s.log ++ [.readFailed ec] }
  | tooShort (source : Endpoint) (datagram : List UInt8) (fits : datagram.length ≤ 2000)
      (h : datagram.length < 16) :
      Received s (.received source datagram fits)
        { s with
          handled := s.handled ++ [.received source datagram fits]
          buffer := datagram ++ s.buffer.drop datagram.length
          log := s.log ++ [.tooShort source] }
  | aborted (source : Endpoint) (datagram : List UInt8) (fits : datagram.length ≤ 2000)
      (ha : s.abort = true) :
      Received s (.received source datagram fits)
        { s with
          handled := s.handled ++ [.received source datagram fits]
          buffer := datagram ++ s.buffer.drop datagram.length }
  | served (source : Endpoint) (datagram : List UInt8) (fits : datagram.length ≤ 2000)
      (h : 16 ≤ datagram.length) (ha : s.abort = false) (b : List UInt8) (udpAnnounces : Int32)
      (replies : List (Endpoint × List UInt8)) (lines : List LogLine) (hb : b.length = 2000)
      (hr : replies.map Prod.fst =
        if action datagram = 0 ∨ action datagram = 1 then [source] else [])
      (hl : lines.count .scrape = if action datagram = 1 ∨ action datagram = 2 then 1 else 0) :
      Received s (.received source datagram fits)
        { s with
          handled := s.handled ++ [.received source datagram fits]
          buffer := b
          udpAnnounces := udpAnnounces
          sent := s.sent ++ replies
          log := s.log ++ lines
          receiving := s.receiving + 1 }

/-- A datagram of at least 16 bytes gets to the `switch` with its own fields: the
three reads stay inside it. -/
theorem onUdpReceive_long (s : UdpTracker) {source : Endpoint} {datagram : List UInt8}
    {fits : datagram.length ≤ 2000} (e : Bool) (h : 16 ≤ datagram.length) (ha : s.abort = false) :
    s.onUdpReceive (.received source datagram fits) e =
      (({ s with
          handled := s.handled ++ [Completion.received source datagram fits]
          buffer := datagram ++ s.buffer.drop datagram.length }.print
        (.message datagram.length)).dispatch (action datagram) (transactionId datagram) source
          e).map asyncReceiveFrom := by
  let b := datagram ++ s.buffer.drop datagram.length
  have hlen : 16 ≤ b.length := by simp only [b, List.length_append]; omega
  have htake : ∀ k, k + 4 ≤ 16 → (b.drop k).take 4 = (datagram.drop k).take 4 := by
    intro k hk
    simp only [b]
    rw [List.drop_append_of_le_length (by omega), List.take_append_of_le_length]
    simp only [List.length_drop]
    omega
  have r8 : (Cursor.start b).read 8 = some (ofBE (b.take 8), ⟨b.take 8, b.drop 8⟩) :=
    Cursor.read_eq (by simp only [Cursor.start]; omega)
  have r4 : (Cursor.mk (b.take 8) (b.drop 8)).read 4 =
      some (action datagram, ⟨b.take 8 ++ (b.drop 8).take 4, b.drop 12⟩) := by
    rw [Cursor.read_eq (by simp only [List.length_drop]; omega), htake 8 (by omega), List.drop_drop]
    rfl
  have r4' : (Cursor.mk (b.take 8 ++ (b.drop 8).take 4) (b.drop 12)).read 4 =
      some (transactionId datagram,
        ⟨b.take 8 ++ (b.drop 8).take 4 ++ (b.drop 12).take 4, b.drop 16⟩) := by
    rw [Cursor.read_eq (by simp only [List.length_drop]; omega), htake 12 (by omega),
      List.drop_drop]
    rfl
  have hn : ¬datagram.length < 16 := by omega
  have hna : ¬s.abort = true := by simp [ha]
  simp only [onUdpReceive, if_neg hn, if_neg hna]
  change (do
    let (_, ptr) ← (Cursor.start b).read 8
    let (action, ptr) ← ptr.read 4
    let (transactionId, _) ← ptr.read 4
    let s ← UdpTracker.dispatch _ action transactionId source e
    some s.asyncReceiveFrom) = _
  simp only [r8, r4, r4', Option.bind_eq_bind, Option.bind_some]
  rw [Option.map_eq_bind]
  rfl

/-- The handler never leaves the buffer, and ends in one of these ways. -/
theorem onUdpReceive_eq (s : UdpTracker) (c : Completion) (e : Bool)
    (hb : s.buffer.length = 2000) : ∃ s', s.onUdpReceive c e = some s' ∧ Received s c s' := by
  cases c with
  | failed ec => exact ⟨_, rfl, .failed ec⟩
  | received source datagram fits =>
    by_cases h : datagram.length < 16
    · refine ⟨_, ?_, .tooShort source datagram fits h⟩
      simp [onUdpReceive, h, print]
    · cases ha : s.abort with
      | true =>
        refine ⟨_, ?_, .aborted source datagram fits ha⟩
        simp [onUdpReceive, h, ha]
      | false =>
        have hlen : (datagram ++ s.buffer.drop datagram.length).length = 2000 := by
          simp only [List.length_append, List.length_drop]
          omega
        obtain ⟨b, u, lines, heq, hb', hl⟩ := dispatch_eq
          ({ s with
              handled := s.handled ++ [Completion.received source datagram fits]
              buffer := datagram ++ s.buffer.drop datagram.length }.print
            (.message datagram.length)) (action datagram) (transactionId datagram) source e hlen
        refine ⟨_, ?_, .served source datagram fits (by omega) ha b u
          (replies (action datagram) (transactionId datagram) source)
          (.message datagram.length :: lines) hb' (replies_fst _ _ _) (by simpa using hl)⟩
        rw [onUdpReceive_long s e (by omega) ha, heq]
        simp [print, asyncReceiveFrom]

/-- A new tracker has done nothing but print how its constructor ended. -/
theorem new_eq (setup : Setup) (buffer : List UInt8) :
    ∃ port thread line, UdpTracker.new setup buffer =
      ⟨0, port, thread, 0, false, buffer, 0, [], false, [], [], [line]⟩ ∧
      (thread = .none ∨ thread = .created) ∧ line ≠ .scrape := by
  unfold UdpTracker.new
  split
  · exact ⟨0, .none, _, rfl, Or.inl rfl, by simp⟩
  · split
    · exact ⟨0, .none, _, rfl, Or.inl rfl, by simp⟩
    · split
      · exact ⟨0, .none, _, rfl, Or.inl rfl, by simp⟩
      · exact ⟨_, .created, _, rfl, Or.inr rfl, by simp⟩

/-- The steps of a tracker, one constructor for each thing that can happen. -/
inductive Step (s : UdpTracker) : Event → UdpTracker → Prop
  | threadFun (ht : s.thread = .created) :
      Step s .threadFun { s with thread := .running, receiving := s.receiving + 1 }
  | complete (c : Completion) (ht : s.thread = .running) (hr : 0 < s.receiving) :
      Step s (.complete c)
        { s with receiving := s.receiving - 1, ready := s.ready ++ [.onUdpReceive c] }
  | receive (c : Completion) (rest : List Handler) (e : Bool) (s' : UdpTracker)
      (ht : s.thread = .running) (hr : s.ready = .onUdpReceive c :: rest)
      (hs : Received { s with ready := rest } c s') : Step s (.handle e) s'
  | stop (rest : List Handler) (e : Bool) (ht : s.thread = .running)
      (hr : s.ready = .stop :: rest) :
      Step s (.handle e) { s with ready := rest }.stop
  | runReturns (ec : Option ErrorCode) (line : LogLine) (ht : s.thread = .running)
      (hr : s.receiving = 0) (hq : s.ready = []) (hl : line ≠ .scrape) :
      Step s (.runReturns ec) { s with thread := .left, log := s.log ++ [line] }
  | post (hp : s.posted = false) :
      Step s .post { s with posted := true, ready := s.ready ++ [.stop] }

theorem step_cases {s s' : UdpTracker} {a : Event} (hb : s.buffer.length = 2000)
    (h : s.step a = some s') : Step s a s' := by
  cases a with
  | threadFun =>
    simp only [step] at h
    split at h <;> cases h
    exact .threadFun ‹_›
  | complete c =>
    simp only [step] at h
    split at h <;> cases h
    rename_i hc
    exact .complete c hc.1 hc.2
  | handle e =>
    simp only [step] at h
    split at h
    · rename_i c rest ht hr
      obtain ⟨t, heq, hrec⟩ := onUdpReceive_eq { s with ready := rest } c e hb
      rw [heq, Option.some.injEq] at h
      subst h
      exact .receive c rest e t ht hr hrec
    · rename_i rest ht hr
      cases h
      exact .stop rest e ht hr
    · cases h
  | runReturns ec =>
    simp only [step] at h
    split at h <;> cases h
    rename_i hc
    exact .runReturns ec _ hc.1 hc.2.1 hc.2.2 (by cases ec <;> simp)
  | post =>
    simp only [step] at h
    split at h <;> cases h
    exact .post (Bool.eq_false_iff.mpr ‹_›)

end UdpTracker

end LearnFramework.Tracker
