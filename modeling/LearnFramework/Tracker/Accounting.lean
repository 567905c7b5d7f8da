import LearnFramework.Tracker.Serving

/-!
# The counts of the tracker

`NumUdpAnnounces` reports `requests_`, which nothing increments; the announces are
counted in `udp_announces_`. Case 1 of the `switch` runs on into case 2, so the
scrape branch is executed for announces too. Both counts are right exactly in the
runs without announces.
-/

namespace LearnFramework.Tracker

open Machines UdpTracker

/-- A datagram of at least 16 bytes with this action. -/
def Completion.hasAction (a : Nat) : Completion → Bool
  | .failed _ => false
  | .received _ datagram _ => 16 ≤ datagram.length && action datagram == a

structure Accounting (s : UdpTracker) : Prop where
  requests_eq : s.requests = 0
  scrapes_eq : s.abort = false → s.log.count .scrape =
    s.handled.countP (Completion.hasAction 1) + s.handled.countP (Completion.hasAction 2)

namespace Accounting

theorem receive {s s' : UdpTracker} {c : Completion} {rest : List Handler} (h : Accounting s)
    (hr : Received { s with ready := rest } c s') : Accounting s' := by
  cases hr with
  | failed ec =>
    refine ⟨h.requests_eq, fun ha => ?_⟩
    have hs := h.scrapes_eq ha
    simpa [List.count_append, Completion.hasAction] using hs
  | tooShort source datagram fits hlt =>
    refine ⟨h.requests_eq, fun ha => ?_⟩
    have hs := h.scrapes_eq ha
    have hn : ¬16 ≤ datagram.length := by omega
    simpa [List.count_append, Completion.hasAction, hn] using hs
  | aborted source datagram fits ha' =>
    refine ⟨h.requests_eq, fun ha => ?_⟩
    exact absurd ha' (by simpa using ha)
  | served source datagram fits hlen ha' b u replies lines hb hrep hl =>
    refine ⟨h.requests_eq, fun ha => ?_⟩
    have hs := h.scrapes_eq ha
    simp only [List.count_append, List.countP_append, hl, hs]
    -- The `switch` goes through the scrape branch for both actions.
    by_cases h1 : action datagram = 1
    · simp [Completion.hasAction, hlen, h1]
      omega
    · by_cases h2 : action datagram = 2
      · simp [Completion.hasAction, hlen, h2]
        omega
      · simp [Completion.hasAction, h1, h2]

theorem step {s s' : UdpTracker} {a : Event} (h : Accounting s) (hs : Step s a s') :
    Accounting s' := by
  cases hs with
  | threadFun ht => exact ⟨h.requests_eq, h.scrapes_eq⟩
  | complete c ht hr => exact ⟨h.requests_eq, h.scrapes_eq⟩
  | receive c rest e s' ht hq hr => exact h.receive hr
  | stop rest e ht hq => exact ⟨h.requests_eq, fun ha => by cases ha⟩
  | runReturns ec line ht hr hq hl =>
    refine ⟨h.requests_eq, fun ha => ?_⟩
    have hs := h.scrapes_eq ha
    simpa [List.count_append, hl] using hs
  | post hp => exact ⟨h.requests_eq, h.scrapes_eq⟩

end Accounting

theorem accounting_of_reachable {setup : Setup} {garbage : { b : List UInt8 // b.length = 2000 }}
    {s : UdpTracker} (hs : (udpTracker setup garbage).Reachable s) : Accounting s := by
  refine hs.invariant_of_reachable ?_ fun s a t hr h ha =>
    h.step (step_cases (chain_of_reachable hr).buffer_length ha)
  obtain ⟨port, thread, line, heq, hth, hl⟩ := new_eq setup garbage
  change Accounting (.new setup garbage)
  rw [heq]
  exact ⟨rfl, fun _ => by simp [hl]⟩

/-- **The counts.** Before `stop`, the number that `NumUdpAnnounces` returns is the
number of announces, and the scrape branch was executed once for each scrape
request, exactly when no announce was handled. -/
theorem counts_iff (setup : Setup) (garbage : { b : List UInt8 // b.length = 2000 })
    (s : UdpTracker) (hs : (udpTracker setup garbage).Reachable s) (ha : s.abort = false) :
    ((numUdpAnnounces (some s)).toInt = s.handled.countP (Completion.hasAction 1) ∧
      s.log.count .scrape = s.handled.countP (Completion.hasAction 2)) ↔
    ∀ c ∈ s.handled, c.hasAction 1 = false := by
  have h := accounting_of_reachable hs
  have hn : (numUdpAnnounces (some s)).toInt = 0 := by
    rw [numUdpAnnounces, numHits, h.requests_eq]
    rfl
  have hzero : s.handled.countP (Completion.hasAction 1) = 0 ↔
      ∀ c ∈ s.handled, c.hasAction 1 = false := by
    rw [List.countP_eq_zero]
    simp
  rw [hn, h.scrapes_eq ha, ← hzero]
  constructor
  · rintro ⟨h1, -⟩
    omega
  · intro h1
    omega

/-- A scrape request. -/
def scrapeRequest : List UInt8 := [0, 0, 0, 0, 0, 0, 0, 10, 0, 0, 0, 2, 0, 0, 0, 7]

/-- An announce request, cut after the transaction id. -/
def announceRequest : List UInt8 := [0, 0, 0, 0, 0, 0, 0, 10, 0, 0, 0, 1, 0, 0, 0, 7]

theorem counts_after_scrape :
    ∃ s : UdpTracker, s.handled = [.received client scrapeRequest (by decide)] ∧
      (numUdpAnnounces (some s)).toInt = s.handled.countP (Completion.hasAction 1) ∧
      s.log.count .scrape = s.handled.countP (Completion.hasAction 2) := by
  have h : ((udpTracker bound zeroes).run (udpTracker bound zeroes).init
      [.threadFun, .complete (.received client scrapeRequest (by decide)), .handle false]).map
        (fun s => decide (s.handled = [.received client scrapeRequest (by decide)] ∧
          s.abort = false)) = some true := by decide +kernel
  obtain ⟨s, hs, hp⟩ := Machine.reachable_of_run h
  obtain ⟨hh, ha⟩ := of_decide_eq_true hp
  refine ⟨s, hh, (counts_iff bound zeroes s hs ha).mpr fun c hc => ?_⟩
  rw [hh, List.mem_singleton] at hc
  subst hc
  decide

/-- After one announce `NumUdpAnnounces` still returns 0, and the scrape branch has
been executed without a scrape request. -/
theorem counts_wrong_after_announce :
    ¬∀ s : UdpTracker, (udpTracker bound zeroes).Reachable s → s.abort = false →
      (numUdpAnnounces (some s)).toInt = s.handled.countP (Completion.hasAction 1) ∧
        s.log.count .scrape = s.handled.countP (Completion.hasAction 2) := by
  intro h
  have hrun : ((udpTracker bound zeroes).run (udpTracker bound zeroes).init
      [.threadFun, .complete (.received client announceRequest (by decide)), .handle false]).map
        (fun s => decide (s.abort = false ∧ s.log.count .scrape = 1 ∧
          s.handled.countP (Completion.hasAction 2) = 0)) = some true := by decide +kernel
  obtain ⟨s, hs, hp⟩ := Machine.reachable_of_run hrun
  obtain ⟨ha, h1, h2⟩ := of_decide_eq_true hp
  have hc := (h s hs ha).2
  omega

end LearnFramework.Tracker
