import LearnFramework.Kafka.CConsumer
import LearnFramework.Lib.Protocol

/-!
# The pointers of the consumer in C++

`Init` logs that the consumer or the topic could not be created, or that `start`
failed, and goes on; `Consume` ends with both pointers null. So a process is sound as
long as no `Init` fails behind its configurations and no `Consume` follows another
one without an `Init` between them (`Good`).
-/

namespace LearnFramework.Kafka

open Machines Protocols CConsumer

variable {ι : Type*}

namespace CConsumer

/-- No method is called through a null pointer, and none gets one. -/
def Call.NonNull : Call → Prop
  | .start consumer topic _ _ => consumer ≠ none ∧ topic ≠ none
  | .consume consumer topic _ _ => consumer ≠ none ∧ topic ≠ none
  | .poll consumer _ => consumer ≠ none
  | .stop consumer topic _ => consumer ≠ none ∧ topic ≠ none
  | _ => True

/-- The consumer and the topic are created, and `start` succeeds. -/
def Outcome.Created (o : Outcome) : Prop :=
  o.consumer ≠ none ∧ o.topic ≠ none ∧ o.start = .noError

/-- `Init` gets a consumer. -/
def Action.SetsConsumer (i : ι) : Action ι → Prop
  | .init j o => j = i ∧ o.conf = true ∧ o.consumer ≠ none
  | _ => False

def Action.ReplacesConsumer (i : ι) : Action ι → Prop
  | .init j o => j = i ∧ o.conf = true
  | .consume j _ => j = i
  | _ => False

/-- `Init` gets a topic. -/
def Action.SetsTopic (i : ι) : Action ι → Prop
  | .init j o => j = i ∧ o.conf = true ∧ o.tconf = true ∧ o.topic ≠ none
  | _ => False

def Action.ReplacesTopic (i : ι) : Action ι → Prop
  | .init j o => j = i ∧ o.conf = true ∧ o.tconf = true
  | .consume j _ => j = i
  | _ => False

/-- Behind its configurations, `Init` succeeds. When `Consume` is called, the last
`Init` since the `Consume` before that went for a consumer has got one, and so for
the topic. -/
def Good (past : List (Action ι)) : Action ι → Prop
  | .init _ o => o.conf = true → o.tconf = true → o.Created
  | .consume i _ =>
    Since (Action.SetsConsumer i) (Action.ReplacesConsumer i) past ∧
      Since (Action.SetsTopic i) (Action.ReplacesTopic i) past
  | _ => True

/-- No `Consume` of the object `i` is running. -/
def Pc.Free (i : ι) : Pc ι → Prop
  | .idle => True
  | .loop j _ => j ≠ i
  | .undefined => False

end CConsumer

namespace Process

/-- `Init` has returned true after a success only, and no null pointer is used. -/
structure Sound (s : Process ι) : Prop where
  init : ∀ r ∈ s.inits, r.2.2 = true → r.2.1.Created
  nonNull : ∀ c ∈ s.calls, c.NonNull

/-- Soundness is lost with what a step adds. -/
theorem sound_append {s t : Process ι} {inits : List (ι × Outcome × Bool)} {calls : List Call}
    (hi : t.inits = s.inits ++ inits) (hc : t.calls = s.calls ++ calls) :
    t.Sound ↔ s.Sound ∧ (∀ r ∈ inits, r.2.2 = true → r.2.1.Created) ∧ ∀ c ∈ calls, c.NonNull := by
  constructor
  · rintro ⟨hinit, hnonNull⟩
    rw [hi, List.forall_mem_append] at hinit
    rw [hc, List.forall_mem_append] at hnonNull
    exact ⟨⟨hinit.1, hnonNull.1⟩, hinit.2, hnonNull.2⟩
  · rintro ⟨⟨hinit, hnonNull⟩, hinits, hcalls⟩
    refine ⟨?_, ?_⟩
    · rw [hi, List.forall_mem_append]
      exact ⟨hinit, hinits⟩
    · rw [hc, List.forall_mem_append]
      exact ⟨hnonNull, hcalls⟩

variable [DecidableEq ι]

/-- `Consume` is called only after `Init` has returned true. -/
def afterInit (s : Process ι) (a : Action ι) (_ : Process ι) : Bool :=
  match a with
  | .consume i _ => s.inits.any fun r => r.1 = i && r.2.2
  | _ => true

/-! ## The steps -/

theorem init_kafkaConsumer (s : Process ι) (i j : ι) (o : Outcome) :
    ((s.init i o).object j).kafkaConsumer =
      if i = j ∧ o.conf = true then o.consumer else (s.object j).kafkaConsumer := by
  obtain ⟨conf, consumer, tconf, topic, start⟩ := o
  by_cases hij : i = j
  · subst hij
    cases conf <;> cases tconf <;> simp [init, Init]
  · simp [init, hij, Function.update_of_ne (Ne.symm hij)]

theorem init_topic (s : Process ι) (i j : ι) (o : Outcome) :
    ((s.init i o).object j).topic =
      if i = j ∧ o.conf = true ∧ o.tconf = true then o.topic else (s.object j).topic := by
  obtain ⟨conf, consumer, tconf, topic, start⟩ := o
  by_cases hij : i = j
  · subst hij
    cases conf <;> cases tconf <;> simp [init, Init]
  · simp [init, hij, Function.update_of_ne (Ne.symm hij)]

/-- A call of `Init` is sound exactly when nothing behind its configurations fails. -/
theorem init_sound {s : Process ι} {i : ι} {o : Outcome} :
    (s.init i o).Sound ↔ s.Sound ∧ (o.conf = true → o.tconf = true → o.Created) := by
  obtain ⟨conf, consumer, tconf, topic, start⟩ := o
  cases conf with
  | false =>
    refine (sound_append (s := s) rfl rfl).trans (and_congr_right fun _ => ?_)
    simp
  | true =>
    cases tconf with
    | false =>
      refine (sound_append (s := s) rfl rfl).trans (and_congr_right fun _ => ?_)
      simp [Call.NonNull]
    | true =>
      refine (sound_append (s := s) rfl rfl).trans (and_congr_right fun _ => ?_)
      cases consumer with
      | none => simp [Call.NonNull, Outcome.Created]
      | some h =>
        simp only [if_false, reduceCtorEq, Option.map_some, Option.toList_some,
          List.forall_mem_singleton, List.forall_mem_append, List.forall_mem_cons,
          Call.NonNull, Outcome.Created]
        simp +contextual

theorem init_pc (s : Process ι) (i : ι) (o : Outcome) :
    (s.init i o).pc =
      if o.conf = true ∧ o.tconf = true ∧ o.consumer = none then .undefined else .idle := by
  obtain ⟨conf, consumer, tconf, topic, start⟩ := o
  cases conf <;> cases tconf <;> cases consumer <;> simp [init, Init]

/-- `consumer` leaves the pointers alone. -/
theorem consumer_object (s : Process ι) (i j : ι) (message : Message) :
    ((s.consumer i message).object j).kafkaConsumer = (s.object j).kafkaConsumer ∧
      ((s.consumer i message).object j).topic = (s.object j).topic := by
  obtain ⟨err, payload, offset⟩ := message
  cases err with
  | noError =>
    by_cases hij : i = j
    · subst hij
      simp [consumer]
    · simp [consumer, Function.update_of_ne (Ne.symm hij)]
  | _ => exact ⟨rfl, rfl⟩

theorem consumer_logs (s : Process ι) (i : ι) (message : Message) :
    (s.consumer i message).pc = s.pc ∧ (s.consumer i message).calls = s.calls ∧
      (s.consumer i message).inits = s.inits := by
  obtain ⟨err, payload, offset⟩ := message
  cases err <;> exact ⟨rfl, rfl, rfl⟩

theorem turn_pc (s : Process ι) (i : ι) (timeout : Int) (message : Message) :
    (s.turn i timeout message).pc = s.pc := (s.consumer_logs i message).1

theorem turn_sound {s : Process ι} {i : ι} {timeout : Int} {message : Message} :
    (s.turn i timeout message).Sound ↔
      s.Sound ∧ (s.object i).kafkaConsumer ≠ none ∧ (s.object i).topic ≠ none := by
  obtain ⟨-, hcalls, hinits⟩ := s.consumer_logs i message
  have hi : (s.turn i timeout message).inits = s.inits ++ [] := by
    rw [List.append_nil]
    exact hinits
  refine (sound_append hi (by simp only [turn, hcalls]; rfl)).trans (and_congr_right fun _ => ?_)
  simp only [List.not_mem_nil, false_implies, implies_true, true_and, List.forall_mem_cons,
    Call.NonNull, and_true]
  exact and_iff_left_of_imp And.left

theorem leave_none {s : Process ι} {i : ι} (h : (s.object i).kafkaConsumer = none) :
    s.leave i = { s with
      pc := .undefined
      calls := s.calls ++ [.stop none (s.object i).topic (s.object i).partition] } := by
  simp [leave, h]

theorem leave_some {s : Process ι} {i : ι} {k : Nat} (h : (s.object i).kafkaConsumer = some k) :
    s.leave i = { s with
      pc := .idle
      object := Function.update s.object i
        { s.object i with topic := none, kafkaConsumer := none }
      calls := s.calls ++ ([.stop (some k) (s.object i).topic (s.object i).partition] ++
        (s.object i).topic.toList.map .delete ++ [.delete k, .waitDestroyed 5000]) } := by
  simp [leave, h]

theorem leave_sound {s : Process ι} {i : ι} :
    (s.leave i).Sound ↔
      s.Sound ∧ (s.object i).kafkaConsumer ≠ none ∧ (s.object i).topic ≠ none := by
  cases hc : (s.object i).kafkaConsumer with
  | none =>
    have hinits : (s.leave i).inits = s.inits ++ [] := by simp [leave_none hc]
    have hcalls := congrArg calls (leave_none hc)
    refine (sound_append hinits hcalls).trans (and_congr_right fun _ => ?_)
    simp [Call.NonNull]
  | some k =>
    have hinits : (s.leave i).inits = s.inits ++ [] := by simp [leave_some hc]
    have hcalls := congrArg calls (leave_some hc)
    refine (sound_append hinits hcalls).trans (and_congr_right fun _ => ?_)
    simp [Call.NonNull, or_imp, forall_and]

/-! ## What the pointers are -/

/-- The pointers as the past determines them; inside of `Consume` they are about to
be lost. -/
structure Tracks (past : List (Action ι)) (s : Process ι) : Prop where
  kafkaConsumer : ∀ i, s.pc.Free i → ((s.object i).kafkaConsumer ≠ none ↔
    Since (Action.SetsConsumer i) (Action.ReplacesConsumer i) past)
  topic : ∀ i, s.pc.Free i → ((s.object i).topic ≠ none ↔
    Since (Action.SetsTopic i) (Action.ReplacesTopic i) past)
  looping : ∀ i timeout, s.pc = .loop i timeout →
    ¬Since (Action.SetsConsumer i) (Action.ReplacesConsumer i) past ∧
      ¬Since (Action.SetsTopic i) (Action.ReplacesTopic i) past

omit [DecidableEq ι] in
/-- A step that changes neither a pointer nor what the past says of them. -/
theorem Tracks.of_silent {past : List (Action ι)} {s t : Process ι} {a : Action ι}
    (h : s.Tracks past)
    (hobject : ∀ j, (t.object j).kafkaConsumer = (s.object j).kafkaConsumer ∧
      (t.object j).topic = (s.object j).topic)
    (hpc : t.pc = s.pc)
    (ha : ∀ j, ¬a.SetsConsumer j ∧ ¬a.ReplacesConsumer j ∧ ¬a.SetsTopic j ∧ ¬a.ReplacesTopic j) :
    t.Tracks (past ++ [a]) := by
  have hconsumer : ∀ j, Since (Action.SetsConsumer j) (Action.ReplacesConsumer j) (past ++ [a]) ↔
      Since (Action.SetsConsumer j) (Action.ReplacesConsumer j) past := fun j =>
    since_concat_of_silent (ha j).1 (ha j).2.1
  have htopic : ∀ j, Since (Action.SetsTopic j) (Action.ReplacesTopic j) (past ++ [a]) ↔
      Since (Action.SetsTopic j) (Action.ReplacesTopic j) past := fun j =>
    since_concat_of_silent (ha j).2.2.1 (ha j).2.2.2
  refine ⟨fun j hj => ?_, fun j hj => ?_, fun j timeout hj => ?_⟩
  · rw [(hobject j).1, hconsumer]
    exact h.kafkaConsumer j (hpc ▸ hj)
  · rw [(hobject j).2, htopic]
    exact h.topic j (hpc ▸ hj)
  · rw [hconsumer, htopic]
    exact h.looping j timeout (hpc ▸ hj)

/-- `Init` replaces the pointers that it goes for, and no others. -/
theorem Tracks.init {past : List (Action ι)} {s : Process ι} (h : s.Tracks past)
    (hpc : s.pc = .idle) (i : ι) (o : Outcome) : (s.init i o).Tracks (past ++ [.init i o]) := by
  have hfree : ∀ j, s.pc.Free j := fun j => by
    rw [hpc]
    trivial
  constructor
  case kafkaConsumer =>
    intro j _
    rw [init_kafkaConsumer]
    by_cases hset : i = j ∧ o.conf = true
    · rw [if_pos hset, since_concat_of_stop (show Action.ReplacesConsumer j (.init i o) from hset)]
      simp [Action.SetsConsumer, hset]
    · have hno : ¬Action.SetsConsumer j (.init i o) := fun hc => hset ⟨hc.1, hc.2.1⟩
      rw [if_neg hset, since_concat_of_silent hno hset]
      exact h.kafkaConsumer j (hfree j)
  case topic =>
    intro j _
    rw [init_topic]
    by_cases hset : i = j ∧ o.conf = true ∧ o.tconf = true
    · rw [if_pos hset, since_concat_of_stop (show Action.ReplacesTopic j (.init i o) from hset)]
      simp [Action.SetsTopic, hset]
    · have hno : ¬Action.SetsTopic j (.init i o) := fun hc => hset ⟨hc.1, hc.2.1, hc.2.2.1⟩
      rw [if_neg hset, since_concat_of_silent hno hset]
      exact h.topic j (hfree j)
  case looping =>
    intro j timeout hj
    rw [init_pc] at hj
    split at hj <;> cases hj

omit [DecidableEq ι] in
/-- From the call of `Consume` on, its pointers count as lost. -/
theorem Tracks.consume {past : List (Action ι)} {s : Process ι} (h : s.Tracks past)
    (hpc : s.pc = .idle) (i : ι) (timeout : Int) :
    ({ s with pc := .loop i timeout } : Process ι).Tracks (past ++ [.consume i timeout]) := by
  have hfree : ∀ j, s.pc.Free j := fun j => by
    rw [hpc]
    trivial
  constructor
  case kafkaConsumer =>
    intro j hj
    have hno : ¬Action.ReplacesConsumer j (.consume i timeout) := hj
    rw [since_concat_of_silent nofun hno]
    exact h.kafkaConsumer j (hfree j)
  case topic =>
    intro j hj
    have hno : ¬Action.ReplacesTopic j (.consume i timeout) := hj
    rw [since_concat_of_silent nofun hno]
    exact h.topic j (hfree j)
  case looping =>
    intro j _ hj
    cases hj
    have hconsumer : Action.ReplacesConsumer i (.consume i timeout) := rfl
    have htopic : Action.ReplacesTopic i (.consume i timeout) := rfl
    rw [since_concat_of_stop hconsumer, since_concat_of_stop htopic]
    exact ⟨nofun, nofun⟩

/-- `Consume` leaves with both pointers null. -/
theorem Tracks.leave {past : List (Action ι)} {s : Process ι} (h : s.Tracks past)
    {i : ι} {timeout : Int} (hpc : s.pc = .loop i timeout) :
    (s.leave i).Tracks (past ++ [.leave]) := by
  cases hc : (s.object i).kafkaConsumer with
  | none =>
    rw [leave_none hc]
    exact ⟨fun j hj => hj.elim, fun j hj => hj.elim, nofun⟩
  | some k =>
    rw [leave_some hc]
    constructor
    case kafkaConsumer =>
      intro j _
      rw [since_concat_of_silent id id]
      by_cases hij : i = j
      · subst hij
        simp [(h.looping i timeout hpc).1]
      · have hold := h.kafkaConsumer j (by rw [hpc]; exact hij)
        simpa [Function.update_of_ne (Ne.symm hij)] using hold
    case topic =>
      intro j _
      rw [since_concat_of_silent id id]
      by_cases hij : i = j
      · subst hij
        simp [(h.looping i timeout hpc).2]
      · have hold := h.topic j (by rw [hpc]; exact hij)
        simpa [Function.update_of_ne (Ne.symm hij)] using hold
    case looping => exact nofun

theorem Tracks.step {past : List (Action ι)} {s t : Process ι} {a : Action ι}
    (h : s.Tracks past) (hs : s.step a = some t) : t.Tracks (past ++ [a]) := by
  cases step_cases hs with
  | init i o hpc => exact h.init hpc i o
  | consume i timeout hpc => exact h.consume hpc i timeout
  | turn i timeout message hpc hrun hc =>
    exact h.of_silent (fun j => s.consumer_object i j message) (turn_pc s i timeout message)
      fun j => ⟨nofun, nofun, nofun, nofun⟩
  | fault i timeout hpc hrun hc => exact ⟨fun j hj => hj.elim, fun j hj => hj.elim, nofun⟩
  | leave i timeout hpc hrun => exact h.leave hpc
  | sigterm hpc => exact h.of_silent (fun j => ⟨rfl, rfl⟩) rfl fun j => ⟨nofun, nofun, nofun, nofun⟩

/-! ## Sound and unsound processes -/

/-- The pointers of the object whose `Consume` is running. -/
def Held (s : Process ι) : Prop :=
  ∀ i timeout, s.pc = .loop i timeout →
    (s.object i).kafkaConsumer ≠ none ∧ (s.object i).topic ≠ none

/-- What holds as long as the steps are good. -/
structure Healthy (s : Process ι) : Prop where
  sound : s.Sound
  held : s.Held

theorem Healthy.step {past : List (Action ι)} {s t : Process ι} {a : Action ι}
    (h : s.Healthy) (htracks : s.Tracks past) (hg : Good past a) (hs : s.step a = some t) :
    t.Healthy := by
  cases step_cases hs with
  | init i o hpc =>
    refine ⟨init_sound.mpr ⟨h.sound, hg⟩, fun j timeout hj => ?_⟩
    rw [init_pc] at hj
    split at hj <;> cases hj
  | consume i timeout hpc =>
    refine ⟨⟨h.sound.init, h.sound.nonNull⟩, fun j _ hj => ?_⟩
    cases hj
    have hfree : s.pc.Free i := by rw [hpc]; trivial
    exact ⟨(htracks.kafkaConsumer i hfree).mpr hg.1, (htracks.topic i hfree).mpr hg.2⟩
  | turn i timeout message hpc hrun hc =>
    have hheld := h.held i timeout hpc
    refine ⟨turn_sound.mpr ⟨h.sound, hheld⟩, fun j timeout' hj => ?_⟩
    rw [turn_pc, hpc] at hj
    cases hj
    obtain ⟨hconsumer, htopic⟩ := s.consumer_object i i message
    exact ⟨hconsumer ▸ hheld.1, htopic ▸ hheld.2⟩
  | fault i timeout hpc hrun hc => exact absurd hc (h.held i timeout hpc).1
  | leave i timeout hpc hrun =>
    have hheld := h.held i timeout hpc
    refine ⟨leave_sound.mpr ⟨h.sound, hheld⟩, ?_⟩
    obtain ⟨k, hk⟩ := Option.ne_none_iff_exists'.mp hheld.1
    rw [leave_some hk]
    exact nofun
  | sigterm hpc => exact ⟨⟨h.sound.init, h.sound.nonNull⟩, h.held⟩

/-- What holds once a step has not been good. -/
def Doomed (s : Process ι) : Prop := s.Held → ¬s.Sound

/-- The first step that is not good. -/
theorem doomed_of_not_good {past : List (Action ι)} {s t : Process ι} {a : Action ι}
    (htracks : s.Tracks past) (hg : ¬Good past a) (hs : s.step a = some t) : t.Doomed := by
  cases step_cases hs with
  | init i o hpc => exact fun _ hsound => hg (init_sound.mp hsound).2
  | consume i timeout hpc =>
    intro hheld _
    have hfree : s.pc.Free i := by rw [hpc]; trivial
    obtain ⟨hconsumer, htopic⟩ := hheld i timeout rfl
    exact hg ⟨(htracks.kafkaConsumer i hfree).mp hconsumer, (htracks.topic i hfree).mp htopic⟩
  | turn i timeout message hpc hrun hc => exact absurd trivial hg
  | fault i timeout hpc hrun hc => exact absurd trivial hg
  | leave i timeout hpc hrun => exact absurd trivial hg
  | sigterm hpc => exact absurd trivial hg

/-- It stays so. -/
theorem Doomed.step {s t : Process ι} {a : Action ι} (h : s.Doomed) (hs : s.step a = some t) :
    t.Doomed := by
  cases step_cases hs with
  | init i o hpc =>
    have hheld : s.Held := by simp [Held, hpc]
    exact fun _ hsound => h hheld (init_sound.mp hsound).1
  | consume i timeout hpc =>
    have hheld : s.Held := by simp [Held, hpc]
    exact fun _ hsound => h hheld ⟨hsound.init, hsound.nonNull⟩
  | turn i timeout message hpc hrun hc =>
    intro _ hsound
    obtain ⟨hsound, hheld⟩ := turn_sound.mp hsound
    refine h (fun j timeout' hj => ?_) hsound
    cases hpc.symm.trans hj
    exact hheld
  | fault i timeout hpc hrun hc =>
    intro _ hsound
    have hcall := hsound.nonNull _ (List.mem_append_right _ (List.mem_singleton_self _))
    exact hcall.1 rfl
  | leave i timeout hpc hrun =>
    intro _ hsound
    obtain ⟨hsound, hheld⟩ := leave_sound.mp hsound
    refine h (fun j timeout' hj => ?_) hsound
    cases hpc.symm.trans hj
    exact hheld
  | sigterm hpc => exact fun hheld hsound => h hheld ⟨hsound.init, hsound.nonNull⟩

end Process

/-! ## Runs -/

open Process

variable [DecidableEq ι] (settings : ι → Settings)

theorem tracks_init : (process settings).init.Tracks [] :=
  ⟨fun i _ => by simp [process, CConsumer.new, not_since_nil],
    fun i _ => by simp [process, CConsumer.new, not_since_nil], nofun⟩

/-- Each run is sound to its end or has gone wrong for good. -/
theorem healthy_or_doomed {acts : List (Action ι)} {s : Process ι}
    (h : (process settings).run (process settings).init acts = some s) :
    s.Tracks acts ∧ (Respects Good acts → s.Healthy) ∧ (¬Respects Good acts → s.Doomed) := by
  induction acts using List.reverseRecOn generalizing s with
  | nil =>
    cases h
    exact ⟨tracks_init settings, fun _ => ⟨⟨nofun, nofun⟩, nofun⟩, fun h => absurd respects_nil h⟩
  | append_singleton past a ih =>
    rw [Machine.run_concat, Option.bind_eq_some_iff] at h
    obtain ⟨u, hu, hs⟩ := h
    obtain ⟨htracks, hhealthy, hdoomed⟩ := ih hu
    refine ⟨htracks.step hs, fun hr => ?_, fun hr => ?_⟩
    · obtain ⟨hpast, ha⟩ := respects_concat.mp hr
      exact (hhealthy hpast).step htracks ha hs
    · by_cases hpast : Respects Good past
      · exact doomed_of_not_good htracks (fun ha => hr (respects_concat.mpr ⟨hpast, ha⟩)) hs
      · exact (hdoomed hpast).step hs

/-- **The protocol of the pointers** is kept in every run whose steps are good, and
in no other one that ends outside of `Consume`. -/
theorem pointer_protocol_iff (acts : List (Action ι)) (s : Process ι) :
    ((process settings).run (process settings).init acts = some s → Respects Good acts →
      s.Sound) ∧
    ((process settings).run (process settings).init acts = some s →
      (∀ i timeout, s.pc ≠ .loop i timeout) → (s.Sound ↔ Respects Good acts)) := by
  refine ⟨fun h hr => ((healthy_or_doomed settings h).2.1 hr).sound, fun h hpc => ?_⟩
  obtain ⟨-, hhealthy, hdoomed⟩ := healthy_or_doomed settings h
  refine ⟨fun hsound => ?_, fun hr => (hhealthy hr).sound⟩
  by_contra hr
  exact hdoomed hr (fun i timeout hi => absurd hi (hpc i timeout)) hsound

/-- The topic is not created, `start` fails, and `Init` returns true. -/
theorem failed_topic_init_true : ¬∀ acts s,
    ((process fun _ : Unit => ⟨"192.168.0.18:9092", "test_2", "1", 0⟩).guarded afterInit).run
      (process fun _ : Unit => ⟨"192.168.0.18:9092", "test_2", "1", 0⟩).init acts = some s →
    s.Sound := by
  intro h
  have hsound := h [.init () ⟨true, some 1, true, none, .other⟩] _ rfl
  have hcreated := hsound.init _ (List.mem_singleton_self _) rfl
  exact hcreated.2.1 rfl

end LearnFramework.Kafka
