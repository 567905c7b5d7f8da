import LearnFramework.Tracker.Serving

/-!
# The replies

A reply is written over the request, which has been read up to the transaction id
by then. Both replies begin with the action and the transaction id of the request; the
one to an announce ends with one peer, whose address is as long as the family says.
-/

namespace LearnFramework.Tracker

open UdpTracker Bytes

/-- What the packet sent in reply to a request of this sender looks like. -/
structure IsReply (source : Endpoint) (request packet : List UInt8) : Prop where
  action_eq : ofBE (packet.take 4) = action request
  transactionId_eq : ofBE ((packet.drop 4).take 4) = ofBE ((request.drop 12).take 4)
  connect : action request = 0 → packet.length = 16
  announce : action request = 1 → ∃ header peer, packet = header ++ peer ∧
    header.length = 20 ∧ peer.length = if source.address.isV6 then 18 else 6

/-- The first two words of a packet. -/
theorem words_of_encode {a t : Nat} (ha : a < 256 ^ 4) (ht : t < 256 ^ 4)
    (fields : List (Nat × Nat)) :
    ofBE ((encode (uint32 a :: uint32 t :: fields)).take 4) = a ∧
      ofBE (((encode (uint32 a :: uint32 t :: fields)).drop 4).take 4) = t := by
  have hlen : ∀ v, (toBE 4 v).length = 4 := toBE_length 4
  simp only [encode_cons, uint32]
  rw [List.take_left' (hlen a), List.drop_left' (hlen a), List.take_left' (hlen t)]
  exact ⟨ofBE_toBE ha, ofBE_toBE ht⟩

theorem transactionId_lt (request : List UInt8) : transactionId request < 256 ^ 4 := by
  have hlen : ((request.drop 12).take 4).length ≤ 4 := List.length_take_le 4 _
  exact (ofBE_lt _).trans_le (Nat.pow_le_pow_right (by omega) hlen)

theorem isReply_connect {source : Endpoint} {request : List UInt8} (h : action request = 0) :
    IsReply source request (encode (connectReply (transactionId request))) := by
  obtain ⟨hfirst, hsecond⟩ :=
    words_of_encode (show 0 < 256 ^ 4 by omega) (transactionId_lt request) [uint64 10]
  refine ⟨hfirst.trans h.symm, hsecond, fun _ => encode_length _, fun h1 => ?_⟩
  rw [h] at h1
  cases h1

theorem isReply_announce {source : Endpoint} {request : List UInt8} (h : action request = 1) :
    IsReply source request
      (encode (announceReply (transactionId request) source.address.isV6)) := by
  obtain ⟨hfirst, hsecond⟩ := words_of_encode (show 1 < 256 ^ 4 by omega) (transactionId_lt request)
    ((announceReply (transactionId request) source.address.isV6).drop 2)
  refine ⟨hfirst.trans h.symm, hsecond, fun h0 => ?_, fun _ => ?_⟩
  · rw [h] at h0
    cases h0
  · refine ⟨_, _, List.flatMap_append, encode_length _, (encode_length _).trans ?_⟩
    cases source.address.isV6 <;> rfl

/-- **The reply.** A datagram of at least 16 bytes is answered exactly when its action
is 0 or 1, once and in this format, and the buffer keeps its 2000 bytes. -/
theorem reply_format (s : UdpTracker) (hb : s.buffer.length = 2000) (ha : s.abort = false)
    (source : Endpoint) (datagram : List UInt8) (fits : datagram.length ≤ 2000)
    (hlen : 16 ≤ datagram.length) (e : Bool) :
    ∃ s', s.onUdpReceive (.received source datagram fits) e = some s' ∧
      s'.buffer.length = 2000 ∧
      ((action datagram = 0 ∨ action datagram = 1) →
        ∃ packet, s'.sent = s.sent ++ [(source, packet)] ∧ IsReply source datagram packet) ∧
      (¬(action datagram = 0 ∨ action datagram = 1) → s'.sent = s.sent) := by
  have hbuffer : (datagram ++ s.buffer.drop datagram.length).length = 2000 := by
    simp only [List.length_append, List.length_drop]
    omega
  rw [onUdpReceive_long s e hlen ha]
  obtain ⟨b, udpAnnounces, lines, heq, hb', -⟩ := dispatch_eq
    ({ s with
        handled := s.handled ++ [Completion.received source datagram fits]
        buffer := datagram ++ s.buffer.drop datagram.length }.print
      (.message datagram.length)) (action datagram) (transactionId datagram) source e hbuffer
  rw [heq]
  refine ⟨_, rfl, hb', ?_, fun hno => ?_⟩
  · rintro (h0 | h1)
    · refine ⟨_, ?_, isReply_connect h0⟩
      simp [asyncReceiveFrom, print, replies, h0]
    · refine ⟨_, ?_, isReply_announce h1⟩
      simp [asyncReceiveFrom, print, replies, h1]
  · have hnone : replies (action datagram) (transactionId datagram) source = [] := by
      rw [← List.map_eq_nil_iff, replies_fst, if_neg hno]
    simp [asyncReceiveFrom, print, hnone]

theorem reply_to_connect : ∃ s' packet,
    (UdpTracker.new bound zeroes).onUdpReceive (.received client connectRequest (by decide)) false =
      some s' ∧ s'.sent = [(client, packet)] ∧ IsReply client connectRequest packet := by
  obtain ⟨s', heq, -, hsent, -⟩ := reply_format (.new bound zeroes) zeroes.2 rfl client
    connectRequest (by decide) (by decide) false
  obtain ⟨packet, hpacket, hreply⟩ := hsent (by decide)
  exact ⟨s', packet, heq, hpacket, hreply⟩

end LearnFramework.Tracker
