import LearnFramework.Kafka.Lines
import LearnFramework.Lib.Outbox

/-!
# Delivery

The producer is an outbox for the texts of the chunks of `stdin`, whatever the calls of
`rd_kafka_produce` return and whenever `SIGINT` arrives: a message is handed over until
the queue takes it or refuses it, and then never again. A signal ends this after the
message that is in `buf`, unless the queue stays full: the retry loop does not look at
`run`.
-/

namespace LearnFramework.Kafka.Producer

open Machines Outboxes Stdio

/-- The reply of the queue in the outcome of a call. -/
def Outcome.reply : Outcome → Reply
  | .accepted => .taken
  | .queueFull => .full
  | .failed => .refused

def Action.reply (a : Action) : Option Reply := a.outcome.map Outcome.reply

/-- The messages in `buf` that have not been decided. -/
def InBuffer (s : Producer) (w : List (List UInt8)) : Prop :=
  match s.pc with
  | .strip => ∃ c r, s.buf.1 = c ++ 0 :: r ∧ Line c ∧ w = [text c].filter (· ≠ [])
  | .retry => w = [s.payload] ∧ s.payload.length = s.len
  | _ => w = []

/-- What the state of the program says about the outbox. What is left of `stdin` is not
known once it is closed. -/
structure Shows (s : Producer) (b : Outbox (List UInt8)) : Prop where
  taken : s.accepted = b.taken
  attempts : s.handed = b.attempts.map fun m => (m, m.length)
  pending : ∃ rest w, (s.stdin = some rest ∨ s.stdin = none) ∧ 0 ∉ rest ∧ s.InBuffer w ∧
    b.pending = w ++ texts 511 rest
  finished : s.pc = .flush ∨ s.pc = .returned 0 → s.run = true → b.pending = []

variable {stdin : List UInt8} {buf : Buffer 512} {s t : Producer} {b : Outbox (List UInt8)}

theorem Shows.read (h : s.Shows b) (hpc : s.pc = .fgets) {rest : List UInt8}
    (hrest : s.stdin = some rest) : (s.read rest).Shows b := by
  obtain ⟨rest', w, hrest', h0, hw, hb⟩ := h.pending
  obtain rfl : rest = rest' := by
    rcases hrest' with hrest' | hrest'
    · exact Option.some.inj (hrest.symm.trans hrest')
    · rw [hrest] at hrest'
      cases hrest'
  rw [InBuffer, hpc] at hw
  subst hw
  by_cases hne : rest = []
  · subst hne
    exact ⟨h.taken, h.attempts, ⟨[], [], Or.inl hrest, h0, rfl, hb⟩,
      fun _ _ => by simpa [texts] using hb⟩
  · rw [read_of_ne_nil s hne]
    have h0' : 0 ∉ rest.drop (chunk 511 rest).length := fun h => h0 (List.mem_of_mem_drop h)
    refine ⟨h.taken, h.attempts, ⟨_, _, Or.inl rfl, h0', ⟨_, _, rfl, line_chunk hne h0, rfl⟩, ?_⟩,
      fun hend => by simp [stored] at hend⟩
    rw [← texts_of_ne_nil hne]
    exact hb

theorem Shows.strip (h : s.Shows b) (hpc : s.pc = .strip) (stray : UInt8) :
    (s.strip stray).Shows b := by
  obtain ⟨rest, w, hrest, h0, hw, hb⟩ := h.pending
  rw [InBuffer, hpc] at hw
  obtain ⟨c, r, hbuf, hline, rfl⟩ := hw
  obtain ⟨buf, indices, hstrip, htake⟩ :=
    strip_text hbuf hline.ne_nil hline.nul hline.newline hline.shape stray
  rw [hstrip]
  by_cases hnil : text c = []
  · rw [hnil] at hb ⊢
    exact ⟨h.taken, h.attempts, ⟨rest, [], hrest, h0, rfl, hb⟩,
      fun hend => by simp [stripped] at hend⟩
  · have hlen : (text c).length ≠ 0 := fun h => hnil (List.length_eq_zero_iff.mp h)
    have hpayload : (s.stripped (text c).length buf indices).payload = text c := htake
    refine ⟨h.taken, h.attempts, ⟨rest, [text c], hrest, h0, ?_, by simpa [hnil] using hb⟩,
      fun hend => by simp [stripped, hlen] at hend⟩
    rw [InBuffer, stripped, if_neg hlen]
    exact ⟨congrArg (fun m => [m]) hpayload.symm, congrArg List.length hpayload⟩

/-- One call of `rd_kafka_produce` is one attempt. -/
theorem Shows.produce (h : s.Shows b) (hpc : s.pc = .retry) (outcome : Outcome) :
    ∃ v, b.attempt outcome.reply = some v ∧ (s.produce outcome).Shows v := by
  obtain ⟨rest, w, hrest, h0, hw, hb⟩ := h.pending
  rw [InBuffer, hpc] at hw
  obtain ⟨rfl, hlen⟩ := hw
  obtain ⟨pending, attempts, taken⟩ := b
  obtain rfl : pending = s.payload :: texts 511 rest := hb
  have hhanded : s.handed ++ [(s.payload, s.len)] =
      (attempts ++ [s.payload]).map fun m => (m, m.length) := by
    rw [h.attempts, List.map_append, List.map_singleton, hlen]
  cases outcome with
  | accepted =>
    refine ⟨_, rfl, congrArg (· ++ [s.payload]) h.taken, hhanded,
      ⟨rest, [], hrest, h0, rfl, rfl⟩, ?_⟩
    simp [Producer.produce]
  | queueFull =>
    refine ⟨_, rfl, h.taken, hhanded, ⟨rest, [s.payload], hrest, h0, ?_, rfl⟩, ?_⟩
    · simp only [InBuffer, Producer.produce, hpc]
      exact ⟨rfl, hlen⟩
    · simp [Producer.produce, hpc]
  | failed =>
    refine ⟨_, rfl, h.taken, hhanded, ⟨rest, [], hrest, h0, rfl, rfl⟩, ?_⟩
    simp [Producer.produce]

/-- **The producer realizes an outbox** for the texts of its input. -/
theorem realizes_outbox (hnul : 0 ∉ stdin) :
    Machine.Realizes (producer stdin buf) (outbox (texts 511 stdin)) Action.reply Shows where
  init := ⟨rfl, rfl, ⟨stdin, [], Or.inl rfl, hnul, rfl, rfl⟩,
    fun hend => by simp [producer] at hend⟩
  step s a t b h hs := by
    obtain ⟨rest, w, hrest, h0, hw, hb⟩ := id h.pending
    cases step_cases hs with
    | start argc conf rk rkt hpc =>
      rw [InBuffer, hpc] at hw
      refine ⟨b, rfl, h.taken, h.attempts, ⟨rest, w, hrest, h0, ?_, hb⟩, ?_⟩
      · by_cases hgo : argc = 3 ∧ conf = true ∧ rk = true ∧ rkt = true
        · rw [InBuffer, if_pos hgo]
          exact hw
        · rw [InBuffer, if_neg hgo]
          exact hw
      · split <;> simp
    | testRun hpc =>
      rw [InBuffer, hpc] at hw
      cases hrun : s.run with
      | true =>
        exact ⟨b, rfl, h.taken, h.attempts, ⟨rest, w, hrest, h0, hw, hb⟩, by simp⟩
      | false =>
        exact ⟨b, rfl, h.taken, h.attempts, ⟨rest, w, hrest, h0, hw, hb⟩,
          fun _ hr => by cases hr⟩
    | fgets rest hpc hrest => exact ⟨b, rfl, h.read hpc hrest⟩
    | strip stray hpc => exact ⟨b, rfl, h.strip hpc stray⟩
    | produce outcome hpc =>
      obtain ⟨v, hv, hshows⟩ := h.produce hpc outcome
      exact ⟨v, Machine.run_cons_some.mpr ⟨v, hv, rfl⟩, hshows⟩
    | flush hpc =>
      rw [InBuffer, hpc] at hw
      exact ⟨b, rfl, h.taken, h.attempts, ⟨rest, w, hrest, h0, hw, hb⟩,
        fun _ hr => h.finished (Or.inl hpc) hr⟩
    | stop hpc =>
      exact ⟨b, rfl, h.taken, h.attempts, ⟨rest, w, Or.inr rfl, h0, hw, hb⟩,
        fun _ hr => by cases hr⟩

/-! ## After a signal -/

/-- The handler has run. -/
structure Stopped (s : Producer) : Prop where
  run : s.run = false
  stdin : s.stdin = none
  started : s.pc ≠ .start

/-- The decisions that are left after a signal. -/
def undecided : Pc → Nat
  | .strip => 1
  | .retry => 1
  | _ => 0

/-- The steps that are left after a signal, attempts at a full queue apart. -/
def stepsLeft : Pc → Nat
  | .strip => 4
  | .retry => 3
  | .loop => 2
  | .flush => 1
  | _ => 0

theorem stopped_of_stop (hs : s.step .stop = some t) : t.Stopped := by
  cases step_cases hs with
  | stop hpc => exact ⟨rfl, rfl, fun h => hpc (Or.inl h)⟩

/-- What one step does after a signal: it goes on to the end, but for a full queue. -/
theorem Stopped.step (h : s.Stopped) {a : Action} (hs : s.step a = some t) :
    t.Stopped ∧
      (undecided t.pc + if a.reply.any Reply.decides = true then 1 else 0) ≤ undecided s.pc ∧
      stepsLeft t.pc + 1 ≤ stepsLeft s.pc + if a.reply = some .full then 1 else 0 := by
  cases step_cases hs with
  | start argc conf rk rkt hpc => exact absurd hpc h.started
  | testRun hpc =>
    refine ⟨⟨h.run, h.stdin, by simp [h.run]⟩, ?_, ?_⟩
    · simp [hpc, h.run, undecided, Action.reply, Action.outcome]
    · simp [hpc, h.run, stepsLeft]
  | fgets rest hpc hrest =>
    rw [h.stdin] at hrest
    cases hrest
  | strip stray hpc =>
    obtain ⟨len, buf, indices, hstrip⟩ := strip_stripped s stray
    rw [hstrip]
    by_cases hlen : len = 0
    · refine ⟨⟨h.run, h.stdin, by simp [stripped, hlen]⟩, ?_, ?_⟩
      · simp [stripped, hlen, undecided, Action.reply, Action.outcome]
      · simp [stripped, hlen, hpc, stepsLeft, Action.reply, Action.outcome]
    · refine ⟨⟨h.run, h.stdin, by simp [stripped, hlen]⟩, ?_, ?_⟩
      · simp [stripped, hlen, hpc, undecided, Action.reply, Action.outcome]
      · simp [stripped, hlen, hpc, stepsLeft]
  | produce outcome hpc =>
    cases outcome with
    | accepted =>
      refine ⟨⟨h.run, h.stdin, by simp [Producer.produce]⟩, ?_, ?_⟩
      · simp [Producer.produce, hpc, undecided, Action.reply, Action.outcome, Outcome.reply,
          Reply.decides]
      · simp [Producer.produce, hpc, stepsLeft]
    | queueFull =>
      refine ⟨⟨h.run, h.stdin, h.started⟩, ?_, ?_⟩
      · simp [Producer.produce, hpc, undecided, Action.reply, Action.outcome, Outcome.reply,
          Reply.decides]
      · simp [Producer.produce, hpc, stepsLeft, Action.reply, Action.outcome, Outcome.reply]
    | failed =>
      refine ⟨⟨h.run, h.stdin, by simp [Producer.produce]⟩, ?_, ?_⟩
      · simp [Producer.produce, hpc, undecided, Action.reply, Action.outcome, Outcome.reply,
          Reply.decides]
      · simp [Producer.produce, hpc, stepsLeft]
  | flush hpc =>
    refine ⟨⟨h.run, h.stdin, by simp⟩, ?_, ?_⟩
    · simp [undecided, Action.reply, Action.outcome]
    · simp [hpc, stepsLeft]
  | stop hpc =>
    -- `stdin` is closed, so the handler cannot run again
    simp [Producer.step, Producer.stop, h.stdin] at hs

/-- What a run does after a signal. -/
theorem Stopped.bounds {acts : List Action} (h : s.Stopped)
    (hrun : (producer stdin buf).run s acts = some t) :
    decided (acts.filterMap Action.reply) ≤ 1 ∧
      acts.length ≤ 4 + (acts.filterMap Action.reply).count .full := by
  constructor
  · have hle := Machine.run_countP_le (M := producer stdin buf) (I := Stopped)
      (μ := fun s => undecided s.pc) (p := fun a => a.reply.any Reply.decides)
      (fun s a t hI ht => ⟨(hI.step ht).1, (hI.step ht).2.1⟩) h hrun
    have hone : undecided s.pc ≤ 1 := by
      cases s.pc <;> simp [undecided]
    rw [decided, List.countP_filterMap]
    have hcount : (fun a : Action => (a.reply.map Reply.decides).getD false) =
        fun a => a.reply.any Reply.decides := by
      funext a
      cases a.reply <;> rfl
    rw [hcount]
    omega
  · have hle := Machine.run_length_le_add (M := producer stdin buf) (I := Stopped)
      (μ := fun s => stepsLeft s.pc) (p := fun a => decide (a.reply = some .full)) (k := 1)
      (fun s a t hI ht => ⟨(hI.step ht).1, by simpa using (hI.step ht).2.2⟩) h hrun
    have hfour : stepsLeft s.pc ≤ 4 := by
      cases s.pc <;> simp [stepsLeft]
    have hcount : (acts.filterMap Action.reply).count .full =
        acts.countP fun a => decide (a.reply = some .full) := by
      rw [List.count, List.countP_filterMap]
      congr 1
      funext a
      cases a.reply with
      | none => rfl
      | some r => simpa using beq_eq_decide r Reply.full
    rw [hcount]
    omega

/-- What a run has made of the messages of `stdin`. -/
structure Delivery (stdin : List UInt8) (acts : List Action) (s : Producer) : Prop where
  accepted : s.accepted = takenOf (texts 511 stdin) (acts.filterMap Action.reply)
  decided_le : decided (acts.filterMap Action.reply) ≤ (texts 511 stdin).length
  calls : s.handed.length = (acts.filterMap Action.reply).length
  handed : ∀ i < s.handed.length, s.handed[i]? =
    ((texts 511 stdin)[decided ((acts.filterMap Action.reply).take i)]?).map fun m => (m, m.length)
  finished : s.pc = .returned 0 → s.run = true →
    decided (acts.filterMap Action.reply) = (texts 511 stdin).length
  stopped : ∀ before after, acts = before ++ .stop :: after →
    decided (after.filterMap Action.reply) ≤ 1 ∧
      after.length ≤ 4 + (after.filterMap Action.reply).count .full

/-- **Delivery.** In every run without NUL bytes, whatever the calls of
`rd_kafka_produce` return and whenever `SIGINT` arrives, the messages accepted are the
texts of the chunks whose call succeeded, in order and none of them twice; each call hands
over the message behind those decided before, so a full queue neither loses nor doubles
one. A run that returns without a signal has decided them all. After a signal no more than
the message in `buf` is decided, and the program takes four steps at most and one more for
each full queue. -/
theorem delivery (hnul : 0 ∉ stdin) (buf : Buffer 512) {acts : List Action} {s : Producer}
    (h : (producer stdin buf).run (producer stdin buf).init acts = some s) :
    Delivery stdin acts s := by
  obtain ⟨b, hb, hshows⟩ := (realizes_outbox hnul).run h
  have hsent := sent_of_run hb
  refine ⟨hshows.taken.trans hsent.taken, hsent.decided_le, ?_, fun i hi => ?_, fun hpc hrun => ?_,
    ?_⟩
  · rw [hshows.attempts, List.length_map, hsent.attempts_length]
  · rw [hshows.attempts, List.length_map, hsent.attempts_length] at hi
    rw [hshows.attempts, List.getElem?_map, hsent.attempts i hi]
  · have hnil := hshows.finished (Or.inr hpc) hrun
    rw [hsent.pending, List.drop_eq_nil_iff] at hnil
    exact le_antisymm hsent.decided_le hnil
  · rintro before after rfl
    rw [Machine.run_append, Option.bind_eq_some_iff] at h
    obtain ⟨u, -, hafter⟩ := h
    obtain ⟨v, hstop, hrest⟩ := Machine.run_cons_some.mp hafter
    exact (stopped_of_stop hstop).bounds hrest

/-- The first message meets a full queue, and the signal comes before the second line. -/
theorem delivery_stopped :
    ∃ acts s, Delivery [97, 10, 98, 10] acts s ∧ s.pc = .returned 0 ∧ s.accepted = [[97]] ∧
      s.handed = [([97], 1), ([97], 1)] := by
  have h : ((producer [97, 10, 98, 10] ⟨List.replicate 512 0, List.length_replicate⟩).run
      (producer [97, 10, 98, 10] ⟨List.replicate 512 0, List.length_replicate⟩).init
      [.start 3 true true true, .testRun, .fgets, .strip 0, .produce .queueFull, .stop,
        .produce .accepted, .testRun, .flush]).map
          (fun s => decide (s.pc = .returned 0 ∧ s.accepted = [[97]] ∧
            s.handed = [([97], 1), ([97], 1)])) = some true := by decide
  obtain ⟨s, hs, hp⟩ := Option.map_eq_some_iff.mp h
  exact ⟨_, s, delivery (by decide) _ hs, of_decide_eq_true hp⟩

end LearnFramework.Kafka.Producer
