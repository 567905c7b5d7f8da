import LearnFramework.Tracker.Serving

/-!
# The stop of the tracker

`stop` is posted once, so it stands in the queue until it has run. Once it has, no
receive is outstanding but for one completion that is ready, and its handler ends at
the error or at `abort_`. Before that, what stands in front of `stop` are the ready
completions, at most one.
-/

namespace LearnFramework.Tracker

open Machines UdpTracker

/-- The events of the io thread; the others come from outside. -/
def Event.ofThread : Event → Bool
  | .complete _ => false
  | .post => false
  | _ => true

namespace UdpTracker

/-- What a handler of a receive leaves alone. -/
theorem Received.frame {s s' : UdpTracker} {c : Completion} (h : Received s c s') :
    s'.thread = s.thread ∧ s'.ready = s.ready ∧ s'.posted = s.posted ∧ s'.abort = s.abort ∧
      s'.receiving ≤ s.receiving + 1 ∧
      (s.abort = true →
        s'.receiving = s.receiving ∧ s'.sent = s.sent ∧ s'.udpAnnounces = s.udpAnnounces) := by
  cases h with
  | failed ec => exact ⟨rfl, rfl, rfl, rfl, Nat.le_succ _, fun _ => ⟨rfl, rfl, rfl⟩⟩
  | tooShort source datagram fits hlt =>
    exact ⟨rfl, rfl, rfl, rfl, Nat.le_succ _, fun _ => ⟨rfl, rfl, rfl⟩⟩
  | aborted source datagram fits ha =>
    exact ⟨rfl, rfl, rfl, rfl, Nat.le_succ _, fun _ => ⟨rfl, rfl, rfl⟩⟩
  | served source datagram fits hlen ha b u replies lines hb hr hl =>
    refine ⟨rfl, rfl, rfl, rfl, Nat.le_refl _, fun ha' => ?_⟩
    rw [ha] at ha'
    cases ha'

end UdpTracker

/-! ## The queue -/

/-- What is known of the queue and of the outstanding receive. -/
structure Orderly (s : UdpTracker) : Prop where
  chain : Chain s
  stops : s.ready.count .stop = if s.posted = true ∧ s.abort = false then 1 else 0
  outstanding_le : s.outstanding ≤ 1
  aborted : s.abort = true → s.posted = true ∧ s.receiving = 0
  left : s.thread = .left → s.outstanding = 0
  idle : s.thread.started = false → s.abort = false

@[simp] theorem isReceive_onUdpReceive (c : Completion) :
    (Handler.onUdpReceive c).isReceive = true := rfl

@[simp] theorem isReceive_stop : Handler.stop.isReceive = false := rfl

theorem length_ready (ready : List Handler) :
    ready.length = ready.countP Handler.isReceive + ready.count .stop := by
  induction ready with
  | nil => rfl
  | cons handler ready ih =>
    cases handler with
    | onUdpReceive c =>
      simp only [List.length_cons, List.countP_cons, List.count_cons, isReceive_onUdpReceive]
      simp
      omega
    | stop =>
      simp only [List.length_cons, List.countP_cons, List.count_cons, isReceive_stop]
      simp
      omega

namespace Orderly

theorem receive {s s' : UdpTracker} {c : Completion} {rest : List Handler} (h : Orderly s)
    (ht : s.thread = .running) (hq : s.ready = .onUdpReceive c :: rest)
    (hr : Received { s with ready := rest } c s') : Orderly s' := by
  obtain ⟨hthread, hready, hposted, habort, hle, hquiet⟩ := hr.frame
  simp only at hthread hready hposted habort hle hquiet
  have hstops := h.stops
  have hout := h.outstanding_le
  rw [hq] at hstops
  rw [outstanding, hq, List.countP_cons_of_pos rfl] at hout
  refine ⟨h.chain.receive ht hq hr, ?_, ?_, fun ha => ?_, fun hl => ?_, fun hf => ?_⟩
  · rw [hready, hposted, habort]
    simpa using hstops
  · rw [outstanding, hready]
    omega
  · rw [habort] at ha
    obtain ⟨hp, h0⟩ := h.aborted ha
    exact ⟨hposted.trans hp, (hquiet ha).1.trans h0⟩
  · rw [hthread, ht] at hl
    cases hl
  · rw [hthread, ht] at hf
    cases hf

theorem stop {s : UdpTracker} {rest : List Handler} (h : Orderly s) (ht : s.thread = .running)
    (hq : s.ready = .stop :: rest) (hchain : Chain { s with ready := rest }.stop) :
    Orderly { s with ready := rest }.stop := by
  have hstops := h.stops
  have hout := h.outstanding_le
  rw [hq, List.count_cons_self] at hstops
  rw [outstanding, hq] at hout
  have hposted : s.posted = true ∧ s.abort = false := by
    by_contra hno
    rw [if_neg hno] at hstops
    omega
  rw [if_pos hposted] at hstops
  refine ⟨hchain, ?_, ?_, fun _ => ⟨hposted.1, rfl⟩, fun hl => ?_, fun hf => ?_⟩
  · have hrest : rest.count .stop = 0 := by omega
    simp [UdpTracker.stop, print, List.count_append, List.count_replicate, hrest]
  · simp only [List.countP_cons, isReceive_stop] at hout
    simpa [outstanding, UdpTracker.stop, print, List.countP_replicate, add_comm] using hout
  · exact absurd (ht.symm.trans hl) (by simp)
  · change s.thread.started = false at hf
    rw [ht] at hf
    cases hf

theorem step {s s' : UdpTracker} {a : Event} (h : Orderly s) (hs : Step s a s') : Orderly s' := by
  have hchain := h.chain.step hs
  cases hs with
  | threadFun ht =>
    have hidle : s.thread.started = false := by rw [ht]; rfl
    have hout := (h.chain.idle hidle).1
    refine ⟨hchain, h.stops, ?_, fun ha => ?_, by simp, fun hf => by cases hf⟩
    · simp only [outstanding] at hout ⊢
      omega
    · rw [h.idle hidle] at ha
      cases ha
  | complete c ht hr =>
    refine ⟨hchain, ?_, ?_, fun ha => ?_, fun hl => ?_, fun hf => ?_⟩
    · simpa [List.count_append] using h.stops
    · have hout := h.outstanding_le
      simp only [outstanding, List.countP_append, List.countP_singleton, isReceive_onUdpReceive,
        if_true] at hout ⊢
      omega
    · have h0 := (h.aborted ha).2
      omega
    · exact absurd (ht.symm.trans hl) (by simp)
    · exact h.idle hf
  | receive c rest e s' ht hq hr => exact h.receive ht hq hr
  | stop rest e ht hq => exact h.stop ht hq hchain
  | runReturns ec line ht hr hq hl =>
    exact ⟨hchain, h.stops, h.outstanding_le, h.aborted, fun _ => by simp [outstanding, hr, hq],
      fun hf => by cases hf⟩
  | post hp =>
    have ha : s.abort = false := by
      by_contra hno
      have hposted := (h.aborted (by simpa using hno)).1
      rw [hp] at hposted
      cases hposted
    have hsame : ({ s with posted := true, ready := s.ready ++ [.stop] } : UdpTracker).outstanding =
        s.outstanding := by simp [outstanding]
    refine ⟨hchain, ?_, ?_, fun ha' => ?_, fun hl => ?_, h.idle⟩
    · have hstops := h.stops
      rw [hp] at hstops
      simp only [Bool.false_eq_true, false_and, if_false] at hstops
      simp [List.count_append, hstops, ha]
    · exact hsame.trans_le h.outstanding_le
    · rw [ha] at ha'
      cases ha'
    · exact hsame.trans (h.left hl)

end Orderly

/-! ## What is still to be done -/

/-- The steps that the handlers in front of `stop` and those behind it can make. -/
def weight : List Handler → Nat
  | [] => 0
  | .stop :: rest => rest.length + 1
  | .onUdpReceive _ :: rest => weight rest + 4

def IoThread.toGo : IoThread → Nat
  | .created => 4
  | .running => 1
  | _ => 0

def UdpTracker.toGo (s : UdpTracker) : Nat :=
  s.thread.toGo + if s.abort then s.ready.length else 2 * s.receiving + weight s.ready

/-- A completion that is queued behind `stop` counts as one step. -/
theorem weight_concat {ready : List Handler} (h : .stop ∈ ready) (c : Completion) :
    weight (ready ++ [.onUdpReceive c]) = weight ready + 1 := by
  induction ready with
  | nil => cases h
  | cons handler ready ih =>
    cases handler with
    | stop => simp [weight]
    | onUdpReceive c' =>
      have hmem : .stop ∈ ready := by simpa using h
      rw [List.cons_append, weight, weight, ih hmem]

namespace Orderly

theorem stop_mem {s : UdpTracker} (h : Orderly s) (hp : s.posted = true) (ha : s.abort = false) :
    .stop ∈ s.ready := by
  have hstops := h.stops
  rw [if_pos ⟨hp, ha⟩] at hstops
  exact List.count_pos_iff.mp (by omega)

theorem not_abort_of_mem {s : UdpTracker} (h : Orderly s) (hm : .stop ∈ s.ready) :
    s.abort = false := by
  have hstops := h.stops
  have hpos := List.count_pos_iff.mpr hm
  split at hstops
  · rename_i hc
    exact hc.2
  · omega

theorem abort_of_empty {s : UdpTracker} (h : Orderly s) (hp : s.posted = true)
    (hq : s.ready = []) : s.abort = true := by
  by_contra hno
  have hm := h.stop_mem hp (by simpa using hno)
  rw [hq] at hm
  cases hm

/-- Behind the post of `stop` every step leaves less to be done. -/
theorem toGo_lt {s s' : UdpTracker} {a : Event} (h : Orderly s) (hp : s.posted = true)
    (hs : Step s a s') : s'.posted = true ∧ s'.toGo < s.toGo := by
  cases hs with
  | threadFun ht =>
    have ha := h.idle (by rw [ht]; rfl)
    refine ⟨hp, ?_⟩
    simp only [toGo, ht, ha, IoThread.toGo, Bool.false_eq_true, if_false]
    omega
  | complete c ht hr =>
    have ha : s.abort = false := by
      by_contra hno
      have h0 := (h.aborted (by simpa using hno)).2
      omega
    refine ⟨hp, ?_⟩
    simp only [toGo, ha, Bool.false_eq_true, if_false, weight_concat (h.stop_mem hp ha)]
    omega
  | receive c rest e s' ht hq hr =>
    obtain ⟨hthread, hready, hposted, habort, hle, -⟩ := hr.frame
    simp only at hthread hready hposted habort hle
    refine ⟨hposted.trans hp, ?_⟩
    rw [toGo, toGo, hthread, hready, habort, hq]
    split
    · simp
    · rw [weight]
      omega
  | stop rest e ht hq =>
    have ha := h.not_abort_of_mem (by rw [hq]; exact List.mem_cons_self)
    refine ⟨hp, ?_⟩
    simp only [toGo, UdpTracker.stop, print, if_true, List.length_append, List.length_replicate, ha,
      Bool.false_eq_true, if_false, hq, weight]
    omega
  | runReturns ec line ht hr hq hl =>
    refine ⟨hp, ?_⟩
    simp [toGo, ht, h.abort_of_empty hp hq, hq, IoThread.toGo]
  | post hp' =>
    rw [hp] at hp'
    cases hp'

/-- After `stop` there is at most one completion to run, and the return of `run`. -/
theorem toGo_le {s : UdpTracker} (h : Orderly s) (ha : s.abort = true) : s.toGo ≤ 2 := by
  have hstops := h.stops
  have hout := h.outstanding_le
  rw [if_neg (by simp [ha])] at hstops
  rw [outstanding] at hout
  rw [toGo, if_pos ha, length_ready]
  cases ht : s.thread with
  | created =>
    have hno := h.idle (by rw [ht]; rfl)
    rw [ha] at hno
    cases hno
  | _ => simp only [IoThread.toGo]; omega

/-- The io thread is done, or it can go on by itself. -/
theorem moves {s : UdpTracker} (h : Orderly s) (hp : s.posted = true) (ht : s.thread ≠ .none) :
    s.thread = .left ∨ ∃ a : Event, a.ofThread = true ∧ (s.step a).isSome = true := by
  cases hth : s.thread with
  | none => exact absurd hth ht
  | created => exact Or.inr ⟨.threadFun, rfl, by simp [UdpTracker.step, hth]⟩
  | left => exact Or.inl rfl
  | running =>
    refine Or.inr ?_
    cases hq : s.ready with
    | nil =>
      have ha := h.abort_of_empty hp hq
      exact ⟨.runReturns none, rfl, by simp [UdpTracker.step, hth, hq, (h.aborted ha).2]⟩
    | cons handler rest =>
      refine ⟨.handle false, rfl, ?_⟩
      cases handler with
      | stop => simp [UdpTracker.step, hth, hq]
      | onUdpReceive c =>
        obtain ⟨s', heq, -⟩ := onUdpReceive_eq { s with ready := rest } c false
          h.chain.buffer_length
        rw [hth] at heq
        simp [UdpTracker.step, hth, hq, heq]

end Orderly

/-! ## Runs -/

variable {setup : Setup} {garbage : { b : List UInt8 // b.length = 2000 }}

theorem orderly_of_reachable {s : UdpTracker} (hs : (udpTracker setup garbage).Reachable s) :
    Orderly s := by
  refine hs.invariant ?_ fun s a t h ha => h.step (step_cases h.chain.buffer_length ha)
  have hchain : Chain (udpTracker setup garbage).init := chain_of_reachable .init
  obtain ⟨port, thread, line, heq, hth, -⟩ := new_eq setup garbage
  have hinit : (udpTracker setup garbage).init =
    ⟨0, port, thread, 0, false, garbage, 0, [], false, [], [], [line]⟩ := heq
  rw [hinit] at hchain ⊢
  exact ⟨hchain, rfl, Nat.zero_le _, nofun, fun _ => rfl, fun _ => rfl⟩

/-- What the steps keep in an orderly state is kept along a run. -/
theorem Orderly.run {I : UdpTracker → Prop}
    (hI : ∀ t a u, Orderly t → I t → Step t a u → I u) {s s' : UdpTracker} {acts : List Event}
    (h : Orderly s) (hs : I s) (hrun : (udpTracker setup garbage).run s acts = some s') :
    Orderly s' ∧ I s' := by
  refine Machine.run_invariant (I := fun t => Orderly t ∧ I t) ?_ ⟨h, hs⟩ hrun
  rintro t a u ⟨ht, hi⟩ hu
  have hstep := step_cases ht.chain.buffer_length hu
  exact ⟨ht.step hstep, hI t a u ht hi hstep⟩

/-- A run behind the post of `stop` is bounded. -/
theorem run_bounded {s s' : UdpTracker} {acts : List Event} (h : Orderly s)
    (hp : s.posted = true) (hrun : (udpTracker setup garbage).run s acts = some s') :
    acts.length + s'.toGo ≤ s.toGo := by
  refine Machine.run_length_le (I := fun s => Orderly s ∧ s.posted = true) ?_ ⟨h, hp⟩ hrun
  rintro s a t ⟨h, hp⟩ ha
  have hs := step_cases h.chain.buffer_length ha
  obtain ⟨hp', hlt⟩ := h.toGo_lt hp hs
  exact ⟨⟨h.step hs, hp'⟩, hlt⟩

/-- After `stop` nothing is sent or counted, and no receive is started. -/
theorem quiet_of_abort {s s' : UdpTracker} {acts : List Event} (h : Orderly s)
    (ha : s.abort = true) (hrun : (udpTracker setup garbage).run s acts = some s') :
    s'.sent = s.sent ∧ s'.udpAnnounces = s.udpAnnounces ∧ s'.receiving = 0 ∧ s'.outstanding ≤ 1 := by
  have hinv : Orderly s' ∧ s'.abort = true ∧ s'.sent = s.sent ∧
      s'.udpAnnounces = s.udpAnnounces := by
    refine Orderly.run (I := fun t => t.abort = true ∧ t.sent = s.sent ∧
      t.udpAnnounces = s.udpAnnounces) ?_ h ⟨ha, rfl, rfl⟩ hrun
    rintro t a u - ⟨ha, hsent, hannounces⟩ hs
    cases hs with
    | receive c rest e u hth hq hr =>
      obtain ⟨-, -, -, habort, -, hquiet⟩ := hr.frame
      obtain ⟨-, hsent', hannounces'⟩ := hquiet ha
      exact ⟨habort.trans ha, hsent'.trans hsent, hannounces'.trans hannounces⟩
    | stop rest e hth hq => exact ⟨rfl, hsent, hannounces⟩
    | _ => exact ⟨ha, hsent, hannounces⟩
  obtain ⟨hs', ha', hsent, hannounces⟩ := hinv
  exact ⟨hsent, hannounces, (hs'.aborted ha').2, hs'.outstanding_le⟩

/-- When the receive chain has ended and `stop` is not posted, `run` has nothing to do. -/
theorem nothing_of_ended {s : UdpTracker} (h : Orderly s) (hp : s.posted = false)
    (hout : s.outstanding = 0) : s.ready = [] ∧ s.receiving = 0 := by
  have hstops := h.stops
  rw [if_neg (by simp [hp])] at hstops
  rw [outstanding] at hout
  refine ⟨List.eq_nil_of_length_eq_zero ?_, by omega⟩
  rw [length_ready]
  omega

/-- No handler of a receive runs once the receive chain has ended. -/
theorem handled_of_ended {s s' : UdpTracker} {acts : List Event} (h : Orderly s)
    (ht : s.thread.started = true) (hout : s.outstanding = 0)
    (hrun : (udpTracker setup garbage).run s acts = some s') : s'.handled = s.handled := by
  have hinv : Orderly s' ∧ s'.thread.started = true ∧ s'.outstanding = 0 ∧
      s'.handled = s.handled := by
    refine Orderly.run (I := fun t => t.thread.started = true ∧ t.outstanding = 0 ∧
      t.handled = s.handled) ?_ h ⟨ht, hout, rfl⟩ hrun
    rintro t a u - ⟨hst, hout, hhandled⟩ hs
    rw [outstanding] at hout
    cases hs with
    | threadFun hth =>
      rw [hth] at hst
      cases hst
    | complete c hth hr => omega
    | receive c rest e u hth hq hr =>
      rw [hq, List.countP_cons_of_pos rfl] at hout
      omega
    | stop rest e hth hq =>
      rw [hq] at hout
      refine ⟨hst, ?_, hhandled⟩
      simp only [List.countP_cons, isReceive_stop] at hout
      simpa [outstanding, UdpTracker.stop, print, List.countP_replicate, and_comm] using hout
    | runReturns ec line hth hr hq hl => exact ⟨rfl, hout, hhandled⟩
    | post hp => exact ⟨hst, by simpa [outstanding] using hout, hhandled⟩
  exact hinv.2.2.2

/-- Behind the post of `stop` the io thread can always go on by itself. -/
theorem moves_of_posted {s s' : UdpTracker} {acts : List Event} (h : Orderly s)
    (hp : s.posted = true) (ht : s.thread ≠ .none)
    (hrun : (udpTracker setup garbage).run s acts = some s') :
    s'.thread = .left ∨ ∃ a : Event, a.ofThread = true ∧ (s'.step a).isSome = true := by
  have hinv : Orderly s' ∧ s'.posted = true ∧ s'.thread ≠ .none := by
    refine Orderly.run (I := fun t => t.posted = true ∧ t.thread ≠ .none) ?_ h ⟨hp, ht⟩ hrun
    rintro t a u ho ⟨hp, hth⟩ hs
    refine ⟨(ho.toGo_lt hp hs).1, ?_⟩
    cases hs with
    | threadFun _ => nofun
    | receive c rest e u _ hq hr => rwa [hr.frame.1]
    | runReturns ec line _ hr hq hl => nofun
    | _ => exact hth
  exact hinv.1.moves hinv.2.1 hinv.2.2

/-- **The stop is clean.** After `stop` nothing is sent or counted, no receive is
started, and at most one handler and the return of `run` are left. From the post of
`stop` on, the io thread is done after finitely many steps and never has to wait for a
datagram. When the receive chain has ended before the post, `run` has returned or does
so next, and no handler of a receive runs any more. -/
theorem clean_stop (setup : Setup) (garbage : { b : List UInt8 // b.length = 2000 })
    (s : UdpTracker) (hs : (udpTracker setup garbage).Reachable s) :
    (s.abort = true → ∀ acts s', (udpTracker setup garbage).run s acts = some s' →
      s'.sent = s.sent ∧ s'.udpAnnounces = s.udpAnnounces ∧ s'.receiving = 0 ∧
        s'.outstanding ≤ 1 ∧ acts.length ≤ 2 ∧
        (s'.thread = .left ∨ ∃ a : Event, a.ofThread = true ∧ (s'.step a).isSome = true)) ∧
    (s.posted = true → s.thread ≠ .none →
      ∃ n, ∀ acts s', (udpTracker setup garbage).run s acts = some s' → acts.length ≤ n ∧
        (s'.thread = .left ∨ ∃ a : Event, a.ofThread = true ∧ (s'.step a).isSome = true)) ∧
    (s.posted = false → s.thread.started = true → s.outstanding = 0 →
      (s.thread = .left ∨ ∀ ec, (s.step (.runReturns ec)).isSome = true) ∧
      (∀ a s', a ≠ .post → s.step a = some s' → s'.thread = .left) ∧
      ∀ acts s', (udpTracker setup garbage).run s acts = some s' → s'.handled = s.handled) := by
  have h := orderly_of_reachable hs
  refine ⟨fun ha acts s' hrun => ?_, fun hp ht => ⟨s.toGo, fun acts s' hrun => ?_⟩,
    fun hp ht hout => ⟨?_, fun a s' hne ha => ?_, fun acts s' => handled_of_ended h ht hout⟩⟩
  · obtain ⟨hsent, hannounces, hreceiving, houtstanding⟩ := quiet_of_abort h ha hrun
    have hle := run_bounded h (h.aborted ha).1 hrun
    have hgo := h.toGo_le ha
    have ht : s.thread ≠ .none := fun ht => by
      have hno := h.idle (by rw [ht]; rfl)
      rw [ha] at hno
      cases hno
    exact ⟨hsent, hannounces, hreceiving, houtstanding, by omega,
      moves_of_posted h (h.aborted ha).1 ht hrun⟩
  · have hle := run_bounded h hp hrun
    exact ⟨by omega, moves_of_posted h hp ht hrun⟩
  · obtain ⟨hready, hreceiving⟩ := nothing_of_ended h hp hout
    cases hth : s.thread with
    | left => exact Or.inl rfl
    | running => exact Or.inr fun ec => by simp [UdpTracker.step, hth, hready, hreceiving]
    | _ => rw [hth] at ht; cases ht
  · obtain ⟨hready, hreceiving⟩ := nothing_of_ended h hp hout
    cases step_cases h.chain.buffer_length ha with
    | threadFun hth =>
      rw [hth] at ht
      cases ht
    | complete c hth hr => omega
    | receive c rest e s' hth hq hr =>
      rw [hready] at hq
      cases hq
    | stop rest e hth hq =>
      rw [hready] at hq
      cases hq
    | runReturns ec line hth hr hq hl => rfl
    | post hp => exact absurd rfl hne

/-- `stop` runs while a connect request is already queued. -/
theorem clean_stop_run : ∃ s : UdpTracker,
    s.ready = [.onUdpReceive (.received client connectRequest (by decide))] ∧
    ∀ acts s', (udpTracker bound zeroes).run s acts = some s' →
      s'.sent = s.sent ∧ s'.receiving = 0 ∧ acts.length ≤ 2 := by
  have hrun : ((udpTracker bound zeroes).run (udpTracker bound zeroes).init
      [.threadFun, .post, .complete (.received client connectRequest (by decide)),
        .handle false]).map
      (fun s => decide (s.ready = [.onUdpReceive (.received client connectRequest (by decide))] ∧
        s.abort = true)) = some true := by decide +kernel
  obtain ⟨s, hs, hp⟩ := Machine.reachable_of_run hrun
  obtain ⟨hq, ha⟩ := of_decide_eq_true hp
  refine ⟨s, hq, fun acts s' h => ?_⟩
  obtain ⟨hsent, -, hreceiving, -, hlen, -⟩ := (clean_stop bound zeroes s hs).1 ha acts s' h
  exact ⟨hsent, hreceiving, hlen⟩

end LearnFramework.Tracker
