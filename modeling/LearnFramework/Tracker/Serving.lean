import LearnFramework.Tracker.UdpTracker

/-!
# The receive chain

A handler that gets to its end starts the next receive; one that returns early
does not. So as long as `stop` has not run, exactly one receive is outstanding if
every completion handled so far was a datagram of at least 16 bytes, and none is
otherwise (`Chain`). A single error or short datagram ends the service.
-/

namespace LearnFramework.Tracker

open Machines UdpTracker

/-- The completions after which the handler starts the next receive. -/
def Completion.rearms : Completion → Bool
  | .failed _ => false
  | .received _ datagram _ => 16 ≤ datagram.length

def Handler.isReceive : Handler → Bool
  | .onUdpReceive _ => true
  | .stop => false

/-- The receives that were started and whose handler has not run. -/
def UdpTracker.outstanding (s : UdpTracker) : Nat := s.receiving + s.ready.countP Handler.isReceive

/-- The io thread has entered `threadFun`. -/
def IoThread.started : IoThread → Bool
  | .running => true
  | .left => true
  | _ => false

structure Chain (s : UdpTracker) : Prop where
  buffer_length : s.buffer.length = 2000
  idle : s.thread.started = false → s.outstanding = 0 ∧ s.handled = []
  outstanding_eq : s.abort = false → s.thread.started = true →
    s.outstanding = if s.handled.all Completion.rearms then 1 else 0
  left : s.abort = false → s.thread = .left → s.handled.all Completion.rearms = false

namespace Chain

/-- While `run` has not returned only the count is at stake. -/
theorem of_running {s : UdpTracker} (hb : s.buffer.length = 2000) (ht : s.thread = .running)
    (ho : s.abort = false → s.outstanding = if s.handled.all Completion.rearms then 1 else 0) :
    Chain s := by
  refine ⟨hb, fun hf => ?_, fun ha _ => ho ha, fun _ hl => ?_⟩
  · rw [ht] at hf
    cases hf
  · rw [ht] at hl
    cases hl

/-- The handler hands the chain on exactly when it gets to its end. -/
theorem receive {s s' : UdpTracker} {c : Completion} {rest : List Handler} (h : Chain s)
    (ht : s.thread = .running) (hq : s.ready = .onUdpReceive c :: rest)
    (hr : Received { s with ready := rest } c s') : Chain s' := by
  have hstart : s.thread.started = true := by rw [ht]; rfl
  have hout : s.outstanding = s.receiving + (rest.countP Handler.isReceive + 1) := by
    rw [outstanding, hq, List.countP_cons_of_pos rfl]
  -- The handler that runs is itself outstanding, so the chain was intact.
  have hall : s.abort = false → s.handled.all Completion.rearms = true ∧ s.receiving = 0 ∧
      rest.countP Handler.isReceive = 0 := by
    intro ha
    have ho := h.outstanding_eq ha hstart
    split at ho
    · rename_i hall
      exact ⟨hall, by omega, by omega⟩
    · omega
  have hlen : ∀ datagram : List UInt8, datagram.length ≤ 2000 →
      (datagram ++ s.buffer.drop datagram.length).length = 2000 := by
    intro datagram fits
    have := h.buffer_length
    simp only [List.length_append, List.length_drop]
    omega
  cases hr with
  | failed ec =>
    refine of_running h.buffer_length ht fun ha => ?_
    obtain ⟨-, h0, h1⟩ := hall ha
    simp [outstanding, h0, h1, Completion.rearms]
  | tooShort source datagram fits hlt =>
    refine of_running (hlen datagram fits) ht fun ha => ?_
    obtain ⟨-, h0, h1⟩ := hall ha
    simp [outstanding, h0, h1, Completion.rearms, hlt]
  | aborted source datagram fits ha' =>
    refine of_running (hlen datagram fits) ht fun ha => ?_
    exact absurd ha' (by simpa using ha)
  | served source datagram fits hlong ha' b u replies lines hb hrep hl =>
    refine of_running hb ht fun ha => ?_
    obtain ⟨h2, h0, h1⟩ := hall ha
    simp only [outstanding, h0, h1, List.all_append, h2]
    simp [Completion.rearms, hlong]

theorem step {s s' : UdpTracker} {a : Event} (h : Chain s) (hs : Step s a s') : Chain s' := by
  cases hs with
  | threadFun ht =>
    obtain ⟨ho, hh⟩ := h.idle (by rw [ht]; rfl)
    refine of_running h.buffer_length rfl fun _ => ?_
    simp only [outstanding] at ho ⊢
    rw [hh, List.all_nil, if_pos rfl]
    omega
  | complete c ht hr =>
    have hsame : ∀ receiving ready, receiving = s.receiving - 1 →
        ready = s.ready ++ [Handler.onUdpReceive c] →
        receiving + ready.countP Handler.isReceive = s.outstanding := by
      rintro _ _ rfl rfl
      rw [List.countP_append, outstanding]
      simp [Handler.isReceive]
      omega
    refine of_running h.buffer_length ht fun ha => ?_
    rw [outstanding, hsame _ _ rfl rfl]
    exact h.outstanding_eq ha (by rw [ht]; rfl)
  | receive c rest e s' ht hq hr => exact h.receive ht hq hr
  | stop rest e ht hq => exact of_running h.buffer_length ht fun ha => (by cases ha)
  | runReturns ec line ht hr hq hl =>
    have hnot : s.abort = false → s.handled.all Completion.rearms = false := by
      intro ha
      have ho := h.outstanding_eq ha (by rw [ht]; rfl)
      rw [outstanding, hr, hq] at ho
      split at ho
      · cases ho
      · exact Bool.eq_false_iff.mpr ‹_›
    refine ⟨h.buffer_length, fun hf => (by cases hf), fun ha _ => ?_, fun ha _ => hnot ha⟩
    exact h.outstanding_eq ha (by rw [ht]; rfl)
  | post hp =>
    have hsame : ({ s with posted := true, ready := s.ready ++ [.stop] } : UdpTracker).outstanding =
        s.outstanding := by simp [outstanding, Handler.isReceive]
    refine ⟨h.buffer_length, fun hf => ?_, fun ha hst => ?_, h.left⟩
    · rw [hsame]
      exact h.idle hf
    · rw [hsame]
      exact h.outstanding_eq ha hst

end Chain

variable {setup : Setup} {garbage : { b : List UInt8 // b.length = 2000 }}

theorem chain_of_reachable {s : UdpTracker} (hs : (udpTracker setup garbage).Reachable s) :
    Chain s := by
  refine hs.invariant ?_ fun s a t h ha => h.step (step_cases h.buffer_length ha)
  obtain ⟨port, thread, line, heq, hth, -⟩ := new_eq setup garbage
  change Chain (.new setup garbage)
  rw [heq]
  refine ⟨garbage.2, fun _ => ⟨rfl, rfl⟩, fun _ ht => ?_, fun _ ht => ?_⟩
  · rcases hth with rfl | rfl <;> cases ht
  · rcases hth with rfl | rfl <;> cases ht

/-! ## Serving -/

/-- The tracker waits for the next datagram, and would answer a connect or an
announce to its sender. -/
structure Serving (s : UdpTracker) : Prop where
  running : s.thread = .running
  outstanding_eq : s.outstanding = 1
  answers : ∀ source datagram fits e, 16 ≤ datagram.length →
    action datagram = 0 ∨ action datagram = 1 →
      ∃ s' packet, s.onUdpReceive (.received source datagram fits) e = some s' ∧
        s'.sent = s.sent ++ [(source, packet)]

theorem answers_of_chain {s : UdpTracker} (h : Chain s) (ha : s.abort = false) (source : Endpoint)
    (datagram : List UInt8) (fits : datagram.length ≤ 2000) (e : Bool) (hlen : 16 ≤ datagram.length)
    (hact : action datagram = 0 ∨ action datagram = 1) :
    ∃ s' packet, s.onUdpReceive (.received source datagram fits) e = some s' ∧
      s'.sent = s.sent ++ [(source, packet)] := by
  obtain ⟨s', heq, hr⟩ := onUdpReceive_eq s (.received source datagram fits) e h.buffer_length
  cases hr with
  | tooShort _ _ _ hlt => omega
  | aborted _ _ _ ha' => exact absurd ha' (by simp [ha])
  | served _ _ _ _ _ b u replies lines hb hrep hl =>
    rw [if_pos hact, List.map_eq_singleton_iff] at hrep
    obtain ⟨⟨source', packet⟩, rfl, rfl⟩ := hrep
    exact ⟨_, packet, heq, rfl⟩

/-- **The tracker keeps serving** before `stop` exactly as long as every completion
it has handled was a datagram of at least 16 bytes. -/
theorem serving_iff (setup : Setup) (garbage : { b : List UInt8 // b.length = 2000 })
    (s : UdpTracker) (hs : (udpTracker setup garbage).Reachable s) (ha : s.abort = false)
    (ht : s.thread.started = true) :
    Serving s ↔ ∀ c ∈ s.handled, c.rearms = true := by
  have h := chain_of_reachable hs
  have ho := h.outstanding_eq ha ht
  rw [← List.all_eq_true]
  constructor
  · intro hserve
    by_contra hall
    rw [if_neg hall, hserve.outstanding_eq] at ho
    cases ho
  · intro hall
    rw [if_pos hall] at ho
    refine ⟨?_, ho, answers_of_chain h ha⟩
    cases hth : s.thread with
    | running => rfl
    | left =>
      have hl := h.left ha hth
      rw [hall] at hl
      cases hl
    | _ => rw [hth] at ht; cases ht

/-- The outcome of the constructor with a bound socket. -/
def bound : Setup := ⟨none, none, .ok 6969⟩

def zeroes : { b : List UInt8 // b.length = 2000 } := ⟨List.replicate 2000 0, List.length_replicate⟩

def client : Endpoint := ⟨.v4 0x7f000001, 4000⟩

/-- A connect request. -/
def connectRequest : List UInt8 := [0, 0, 4, 23, 39, 16, 25, 128, 0, 0, 0, 0, 0, 0, 0, 7]

theorem serving_after_connect :
    ∃ s : UdpTracker, s.handled = [.received client connectRequest (by decide)] ∧ Serving s := by
  have h : ((udpTracker bound zeroes).run (udpTracker bound zeroes).init
      [.threadFun, .complete (.received client connectRequest (by decide)), .handle false]).map
        (fun s => decide (s.handled = [.received client connectRequest (by decide)] ∧
          s.abort = false ∧ s.thread.started = true)) = some true := by decide +kernel
  obtain ⟨s, hs, hp⟩ := Machine.reachable_of_run h
  obtain ⟨hh, ha, ht⟩ := of_decide_eq_true hp
  refine ⟨s, hh, (serving_iff bound zeroes s hs ha ht).mpr fun c hc => ?_⟩
  rw [hh, List.mem_singleton] at hc
  subst hc
  decide

/-- An empty datagram ends the service. -/
theorem not_serving_after_empty :
    ¬∀ s : UdpTracker, (udpTracker bound zeroes).Reachable s → s.abort = false →
      s.thread.started = true → Serving s := by
  intro h
  have hrun : ((udpTracker bound zeroes).run (udpTracker bound zeroes).init
      [.threadFun, .complete (.received client [] (by decide)), .handle false]).map
        (fun s => decide (s.outstanding = 0 ∧ s.abort = false ∧ s.thread.started = true)) =
          some true := by decide +kernel
  obtain ⟨s, hs, hp⟩ := Machine.reachable_of_run hrun
  obtain ⟨ho, ha, ht⟩ := of_decide_eq_true hp
  have h1 := (h s hs ha ht).outstanding_eq
  omega

end LearnFramework.Tracker
