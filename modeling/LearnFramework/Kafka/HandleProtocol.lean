import LearnFramework.Kafka.Consumer
import LearnFramework.Lib.Protocol

/-!
# The handle of the consumer

`initKafka` returns -1 when it fails and `main` tests for 0, so a failure leads
to the poll loop with a null handle or without a subscription; a missing `-t` puts a
null topic on the list. The countdown ends at 0 or below when the first four waits
time out or a signal arrives, and then the destroyed handle is dumped. A
run that avoids all of these keeps the protocol (`Healthy`), and one that does not
has broken it when `main` returns (`Doomed`).
-/

namespace LearnFramework.Kafka.Consumer

open Machines Protocols

/-- `rd_kafka_new` has returned the handle, and it has not been destroyed. -/
def Live (past : List Call) (rk : Handle) : Prop :=
  ∃ h, rk = some h ∧ .new (some h) ∈ past ∧ .destroy (some h) ∉ past

def Allowed (past : List Call) : Call → Prop
  | .listAdd topic => topic ≠ none
  | .enterLoop => ∃ rk, .subscribe rk true ∈ past
  | .consumerPoll rk => Live past rk
  | .consumerClose rk => Live past rk
  | .destroy rk => Live past rk
  | .dump rk => Live past rk
  | _ => True

/-- Nothing fails in `initKafka`. -/
def Init.ok (init : Init) : Bool :=
  init.groupId && init.storeMethod && init.new.isSome && init.subscribe

/-- `-t` is among the options. -/
def topicGiven (args : List (List Char)) : Bool :=
  (Getopt.getopt optstring args).any fun o => o.1 = 't'

/-- A topic is given; `initKafka` succeeds; not all of the first four waits time out;
no signal arrives after the handle has been destroyed. -/
def good (s : Consumer) (a : Action) (_ : Consumer) : Bool :=
  match a with
  | .getopt args => topicGiven args
  | .initKafka init => init.ok
  | .wait timedOut => !timedOut || s.run ≠ 2
  | .sigint => s.pc ≠ .wait && s.pc ≠ .check
  | _ => true

/-! ## The options -/

theorem setOption_calls (s : Consumer) (o : Getopt.Opt) : (s.setOption o).calls = s.calls := by
  unfold setOption
  split <;> rfl

theorem setOption_topic (s : Consumer) (o : Getopt.Opt) :
    (s.setOption o).topic = if o.1 = 't' then o.2 else s.topic := by
  obtain ⟨c, optarg⟩ := o
  unfold setOption
  split
  · rename_i heq
    cases heq
    rfl
  · rename_i heq
    cases heq
    rfl
  · rename_i hg ht
    rw [if_neg fun hc => ht optarg (by rw [← hc])]

theorem foldl_setOption_calls (os : List Getopt.Opt) (s : Consumer) :
    (os.foldl setOption s).calls = s.calls := by
  induction os generalizing s with
  | nil => rfl
  | cons o os ih => rw [List.foldl_cons, ih, setOption_calls]

theorem foldl_setOption_topic {os : List Getopt.Opt}
    (harg : ∀ o ∈ os, Getopt.HasArgument optstring o) (s : Consumer) :
    (os.foldl setOption s).topic = none ↔
      s.topic = none ∧ os.any (fun o => o.1 = 't') = false := by
  induction os generalizing s with
  | nil => simp
  | cons o os ih =>
    rw [List.forall_mem_cons] at harg
    rw [List.foldl_cons, ih harg.2, setOption_topic, List.any_cons, Bool.or_eq_false_iff]
    by_cases ho : o.1 = 't'
    · have hne : o.2 ≠ none := harg.1 (by rw [ho]; decide)
      simp [ho, hne]
    · simp [ho]

/-- The topic is null when no `-t` is given. -/
theorem options_topic {s : Consumer} (hs : s.topic = none) (args : List (List Char)) :
    (s.options args).topic = none ↔ topicGiven args = false := by
  rw [options, foldl_setOption_topic (Getopt.getopt_hasArgument (by decide) args), hs]
  exact and_iff_right rfl

/-! ## `initKafka` -/

theorem not_live_none (past : List Call) : ¬Live past none := by
  rintro ⟨h, heq, -⟩
  cases heq

theorem Live.concat {past : List Call} {rk : Handle} (h : Live past rk) {c : Call}
    (hc : c ≠ .destroy rk) : Live (past ++ [c]) rk := by
  obtain ⟨h, rfl, hnew, hno⟩ := h
  refine ⟨h, rfl, List.mem_append_left _ hnew, fun hm => ?_⟩
  rcases List.mem_append.mp hm with hm | hm
  · exact hno hm
  · exact hc (List.mem_singleton.mp hm).symm

@[simp] theorem branch_failed (s : Consumer) :
    branch (s, -1) = { s with pc := .loop }.log .enterLoop := rfl

@[simp] theorem branch_ok (s : Consumer) :
    branch (s, 1) = { s with pc := .loop }.log .enterLoop := rfl

/-- A failure is reported with -1, before any subscription. -/
theorem initKafka_failed {s : Consumer} (hs : s.calls = []) {init : Init}
    (h : init.ok = false) :
    ∃ t : Consumer, s.initKafka init = (t, -1) ∧ ∀ rk, .subscribe rk true ∉ t.calls := by
  obtain ⟨groupId, storeMethod, new, subscribe⟩ := init
  cases groupId with
  | false => exact ⟨_, rfl, by simp [log, hs]⟩
  | true =>
    cases storeMethod with
    | false => exact ⟨_, rfl, by simp [log, hs]⟩
    | true =>
      cases new with
      | none => exact ⟨_, rfl, by simp [log, hs]⟩
      | some h' =>
        cases subscribe with
        | false => exact ⟨_, rfl, by simp [log, hs]⟩
        | true => cases h

theorem initKafka_ok (s : Consumer) {init : Init} (h : init.ok = true) :
    ∃ rk, s.initKafka init =
      ({ s with
        rk := some rk
        calls := s.calls ++ [.setGroupId (s.group.getD defaultGroup)] ++ [.new (some rk)] ++
          [.pollSetConsumer (some rk)] ++ [.listAdd s.topic] ++
          [.subscribe (some rk) true] }, 1) := by
  obtain ⟨groupId, storeMethod, new, subscribe⟩ := init
  simp only [Init.ok, Bool.and_eq_true] at h
  obtain ⟨⟨⟨rfl, rfl⟩, hnew⟩, rfl⟩ := h
  obtain ⟨rk, rfl⟩ := Option.isSome_iff_exists.mp hnew
  exact ⟨rk, rfl⟩

/-- **The calls of `initKafka`** keep the protocol, up to the poll loop, only when
nothing fails and there is a topic. -/
theorem respects_branch_initKafka {s : Consumer} (hs : s.calls = []) (init : Init) :
    Respects Allowed (branch (s.initKafka init)).calls ↔ init.ok = true ∧ s.topic ≠ none := by
  cases hok : init.ok with
  | false =>
    obtain ⟨t, ht, hno⟩ := initKafka_failed hs hok
    rw [ht, branch_failed, log, respects_concat]
    simp only [Bool.false_eq_true, false_and, iff_false, not_and]
    rintro - ⟨rk, hrk⟩
    exact hno rk hrk
  | true =>
    obtain ⟨rk, ht⟩ := initKafka_ok s hok
    simp only [ht, branch_ok, log, hs, respects_concat, respects_nil, Allowed, true_and, and_true]
    exact and_iff_left ⟨some rk, by simp⟩

/-- After a success the handle is live. -/
theorem live_branch_initKafka {s : Consumer} (hs : s.calls = []) {init : Init}
    (h : init.ok = true) :
    Live (branch (s.initKafka init)).calls (branch (s.initKafka init)).rk := by
  obtain ⟨rk, ht⟩ := initKafka_ok s h
  rw [ht, branch_ok]
  exact ⟨rk, rfl, by simp [log], by simp [log, hs]⟩

/-- Whatever fails, `main` goes to the poll loop. -/
theorem branch_initKafka_pc {s : Consumer} (hs : s.calls = []) (init : Init) :
    (branch (s.initKafka init)).pc = .loop := by
  cases hok : init.ok with
  | false =>
    obtain ⟨t, ht, -⟩ := initKafka_failed hs hok
    rw [ht]
    rfl
  | true =>
    obtain ⟨rk, ht⟩ := initKafka_ok s hok
    rw [ht]
    rfl

/-! ## Runs that keep the protocol -/

/-- What holds as long as nothing has gone wrong. -/
structure Healthy (s : Consumer) : Prop where
  respects : Respects Allowed s.calls
  fresh : s.pc = .options → s.calls = [] ∧ s.topic = none
  ready : s.pc = .initKafka → s.calls = [] ∧ s.topic ≠ none
  live : s.pc = .loop ∨ s.pc = .poll ∨ s.pc = .close ∨ s.pc = .destroy → Live s.calls s.rk
  destroyed : s.pc = .wait ∨ s.pc = .check → .destroy s.rk ∈ s.calls
  countdown : s.pc = .wait → 2 ≤ s.run
  inTime : s.pc = .check → 1 ≤ s.run

/-- What one step keeps. -/
theorem Healthy.step {s t : Consumer} {a : Action} (h : s.Healthy) (hs : s.step a = some t)
    (hg : good s a t = true) : t.Healthy := by
  cases step_cases hs with
  | getopt args hpc =>
    obtain ⟨hcalls, htopic⟩ := h.fresh hpc
    have hcalls' : (s.options args).calls = [] := by
      rw [options, foldl_setOption_calls, hcalls]
    refine ⟨?_, nofun, fun _ => ⟨hcalls', fun hnone => ?_⟩, by simp, by simp,
      nofun, nofun⟩
    · change Respects Allowed (s.options args).calls
      rw [hcalls']
      exact respects_nil
    · exact absurd hg (by simp [good, (options_topic htopic args).mp hnone])
  | initKafka init hpc =>
    obtain ⟨hcalls, htopic⟩ := h.ready hpc
    have hpc' := branch_initKafka_pc hcalls init
    exact ⟨(respects_branch_initKafka hcalls init).mpr ⟨hg, htopic⟩, by simp [hpc'],
      by simp [hpc'], fun _ => live_branch_initKafka hcalls hg, by simp [hpc'], by simp [hpc'],
      by simp [hpc']⟩
  | testRun hpc =>
    have hlive := h.live (Or.inl hpc)
    by_cases hrun : s.run = 0
    · simp only [if_pos hrun]
      exact ⟨h.respects, nofun, nofun, fun _ => hlive, by simp, nofun, nofun⟩
    · simp only [if_neg hrun]
      exact ⟨h.respects, nofun, nofun, fun _ => hlive, by simp, nofun, nofun⟩
  | poll message run hpc =>
    have hlive := h.live (Or.inr (Or.inl hpc))
    exact ⟨respects_concat.mpr ⟨h.respects, hlive⟩, nofun, nofun,
      fun _ => hlive.concat (by simp), by simp [log], nofun, nofun⟩
  | close hpc =>
    have hlive := h.live (Or.inr (Or.inr (Or.inl hpc)))
    exact ⟨respects_concat.mpr ⟨h.respects, hlive⟩, nofun, nofun,
      fun _ => hlive.concat (by simp), by simp [log], nofun, nofun⟩
  | destroy hpc =>
    have hlive := h.live (Or.inr (Or.inr (Or.inr hpc)))
    exact ⟨respects_concat.mpr ⟨h.respects, hlive⟩, nofun, nofun, by simp [log],
      fun _ => by simp [log], fun _ => by simp [log], nofun⟩
  | wait timedOut hpc hpos =>
    have hrun := h.countdown hpc
    have hdestroyed := h.destroyed (Or.inl hpc)
    cases timedOut with
    | true =>
      have hne : s.run ≠ 2 := by simpa [good] using hg
      exact ⟨respects_concat.mpr ⟨h.respects, trivial⟩, nofun, nofun, by simp [log],
        fun _ => List.mem_append_left _ hdestroyed, fun _ => by simp only [log]; omega, nofun⟩
    | false =>
      exact ⟨respects_concat.mpr ⟨h.respects, trivial⟩, nofun, nofun, by simp [log],
        fun _ => List.mem_append_left _ hdestroyed, nofun, fun _ => by simp only [log]; omega⟩
  | giveUp hpc hneg =>
    have hrun := h.countdown hpc
    omega
  | dump hpc hneg =>
    have hrun := h.inTime hpc
    omega
  | finish hpc hpos => exact ⟨h.respects, nofun, nofun, by simp, by simp, nofun, nofun⟩
  | sigint hpc =>
    simp only [good, Bool.and_eq_true, decide_eq_true_eq] at hg
    rw [stop]
    split
    · exact ⟨h.respects, nofun, nofun, by simp, by simp, nofun, nofun⟩
    · exact ⟨h.respects, h.fresh, h.ready, h.live, h.destroyed,
        fun hw => absurd hw (by simpa using hg.1), fun hc => absurd hc (by simpa using hg.2)⟩

theorem healthy_init : consumer.init.Healthy :=
  ⟨respects_nil, fun _ => ⟨rfl, rfl⟩, nofun, by simp [consumer], by simp [consumer], nofun, nofun⟩

/-! ## Runs that break it -/

/-- What holds once something has gone wrong. -/
inductive Doomed (s : Consumer) : Prop where
  | broken (h : ¬Respects Allowed s.calls)
  | exited (h : s.pc = .exited)
  | noTopic (hpc : s.pc = .initKafka) (hcalls : s.calls = []) (htopic : s.topic = none)
  | wait (hpc : s.pc = .wait) (hrun : s.run ≤ 1) (h : .destroy s.rk ∈ s.calls)
  | check (hpc : s.pc = .check) (hrun : s.run ≤ 0) (h : .destroy s.rk ∈ s.calls)

/-- The first step that goes wrong. -/
theorem Healthy.doomed {s t : Consumer} {a : Action} (h : s.Healthy) (hs : s.step a = some t)
    (hg : good s a t = false) : t.Doomed := by
  cases step_cases hs with
  | getopt args hpc =>
    obtain ⟨hcalls, htopic⟩ := h.fresh hpc
    refine .noTopic rfl ?_ ((options_topic htopic args).mpr hg)
    change (s.options args).calls = []
    rw [options, foldl_setOption_calls, hcalls]
  | initKafka init hpc =>
    refine .broken fun hr => ?_
    have hok := ((respects_branch_initKafka (h.ready hpc).1 init).mp hr).1
    exact absurd (hok.symm.trans hg) (by decide)
  | wait timedOut hpc hpos =>
    simp only [good, ne_eq, decide_not, Bool.or_eq_false_iff, Bool.not_eq_eq_eq_not, Bool.not_false,
      decide_eq_true_eq] at hg
    obtain ⟨rfl, hrun⟩ := hg
    refine .wait rfl ?_ (List.mem_append_left _ (h.destroyed (Or.inl hpc)))
    simp only [log]
    omega
  | sigint _ =>
    by_cases hrun : s.run = 0
    · rw [stop, if_pos hrun]
      exact .exited rfl
    · rw [stop, if_neg hrun]
      have hpc : s.pc = .wait ∨ s.pc = .check := by
        by_contra hno
        rw [not_or] at hno
        simp [good, hno] at hg
      rcases hpc with hpc | hpc
      · exact .wait hpc (by simp) (h.destroyed (Or.inl hpc))
      · exact .check hpc (by simp) (h.destroyed (Or.inr hpc))
  | _ => cases hg

theorem calls_prefix_branch (p : Consumer × Int) : p.1.calls <+: (branch p).calls := by
  unfold branch
  split
  · exact List.prefix_refl _
  · exact List.prefix_append _ _

theorem calls_prefix_initKafka (s : Consumer) (init : Init) :
    s.calls <+: (s.initKafka init).1.calls := by
  obtain ⟨groupId, storeMethod, new, subscribe⟩ := init
  cases groupId <;> cases storeMethod <;> cases new <;> cases subscribe <;>
    simp [initKafka, log]

/-- Calls are only added. -/
theorem calls_prefix_step {s t : Consumer} {a : Action} (hs : s.step a = some t) :
    s.calls <+: t.calls := by
  cases step_cases hs with
  | getopt args hpc =>
    change s.calls <+: (s.options args).calls
    rw [options, foldl_setOption_calls]
  | initKafka init hpc => exact (calls_prefix_initKafka s init).trans (calls_prefix_branch _)
  | testRun hpc => exact List.prefix_rfl
  | giveUp hpc hrun => exact List.prefix_rfl
  | finish hpc hrun => exact List.prefix_rfl
  | sigint hpc =>
    rw [stop]
    split <;> exact List.prefix_rfl
  | _ => exact List.prefix_append _ _

/-- A signal while the countdown has nothing left, or before. -/
theorem Doomed.stop {s : Consumer} (h : s.Doomed) : s.stop.Doomed := by
  by_cases hrun : s.run = 0
  · rw [Consumer.stop, if_pos hrun]
    exact .exited rfl
  · rw [Consumer.stop, if_neg hrun]
    cases h with
    | broken h => exact .broken h
    | exited h => exact .exited h
    | noTopic hpc hcalls htopic => exact .noTopic hpc hcalls htopic
    | wait hpc _ h => exact .wait hpc (by simp) h
    | check hpc _ h => exact .check hpc (by simp) h

theorem not_live_of_destroy {past : List Call} {rk : Handle} (h : .destroy rk ∈ past) :
    ¬Live past rk := by
  rintro ⟨_, rfl, -, hno⟩
  exact hno h

/-- What has gone wrong stays so. -/
theorem Doomed.step {s t : Consumer} {a : Action} (h : s.Doomed) (hs : s.step a = some t) :
    t.Doomed := by
  have hcases := step_cases hs
  by_cases hsig : a = .sigint
  · subst hsig
    cases hcases
    exact h.stop
  cases h with
  | broken h =>
    obtain ⟨more, hmore⟩ := calls_prefix_step hs
    exact .broken fun hr => h (hmore ▸ hr).of_append
  | exited hpc => cases hcases <;> simp_all
  | noTopic hpc hcalls htopic =>
    cases hcases with
    | initKafka init _ =>
      exact .broken fun hr => ((respects_branch_initKafka hcalls init).mp hr).2 htopic
    | _ => simp_all
  | wait hpc hrun hdestroy =>
    cases hcases with
    | wait timedOut _ hpos =>
      have hmem : .destroy s.rk ∈ s.calls ++ [.waitDestroyed] := List.mem_append_left _ hdestroy
      cases timedOut with
      | true => exact .wait rfl (by simp only [log]; omega) hmem
      | false => exact .check rfl (by simp only [log]; omega) hmem
    | giveUp _ hneg => exact .check rfl (by simp only; omega) hdestroy
    | _ => simp_all
  | check hpc hrun hdestroy =>
    cases hcases with
    | dump _ _ => exact .broken fun hr => not_live_of_destroy hdestroy (respects_concat.mp hr).2
    | finish _ hpos => exact absurd hrun hpos
    | _ => simp_all

/-! ## Runs -/

theorem respects_of_guarded {s : Consumer} (h : (consumer.guarded good).Reachable s) :
    Respects Allowed s.calls := by
  have hstep : ∀ s a t, Healthy s → (consumer.guarded good).step s a = some t → Healthy t := by
    intro s a t hI ht
    obtain ⟨hs, hg⟩ := Machine.guarded_step.mp ht
    exact hI.step hs hg
  have h0 : (consumer.guarded good).init.Healthy := healthy_init
  exact (Machine.Reachable.invariant h0 hstep h).respects

theorem Doomed.not_respects {s : Consumer} (h : s.Doomed) (hpc : s.pc = .returned) :
    ¬Respects Allowed s.calls := by
  cases h with
  | broken h => exact h
  | exited h => simp [hpc] at h
  | noTopic h _ _ => simp [hpc] at h
  | wait h _ _ => simp [hpc] at h
  | check h _ _ => simp [hpc] at h

/-- A run that returns with the protocol kept has had good steps only. -/
theorem run_guarded {s t : Consumer} {acts : List Action} (hI : s.Healthy)
    (hrun : consumer.run s acts = some t) (hpc : t.pc = .returned)
    (hr : Respects Allowed t.calls) : (consumer.guarded good).run s acts = some t := by
  induction acts generalizing s with
  | nil => exact hrun
  | cons a acts ih =>
    obtain ⟨u, hu, hrest⟩ := Machine.run_cons_some.mp hrun
    cases hg : good s a u with
    | true =>
      exact Machine.run_cons_some.mpr ⟨u, Machine.guarded_step.mpr ⟨hu, hg⟩,
        ih (hI.step hu hg) hrest⟩
    | false =>
      have hdoomed : t.Doomed := Machine.run_invariant (I := Doomed) (fun _ _ _ h hs => h.step hs)
        (hI.doomed hu hg) hrest
      exact absurd hr (hdoomed.not_respects hpc)

/-- **The protocol of the handle** is kept in every run whose steps are good, and in
no other one in which `main` returns. -/
theorem handle_protocol_iff (acts : List Action) (s : Consumer) :
    ((consumer.guarded good).run consumer.init acts = some s → Respects Allowed s.calls) ∧
    (consumer.run consumer.init acts = some s → s.pc = .returned →
      (Respects Allowed s.calls ↔ (consumer.guarded good).run consumer.init acts = some s)) := by
  refine ⟨fun h => respects_of_guarded ⟨acts, h⟩, fun hrun hpc => ?_⟩
  exact ⟨run_guarded healthy_init hrun hpc, fun h => respects_of_guarded ⟨acts, h⟩⟩

/-- The group is refused, and a null handle is polled. -/
theorem failed_init_polls_null :
    ¬∀ acts s, consumer.run consumer.init acts = some s → Respects Allowed s.calls := by
  intro h
  have hrun : consumer.run consumer.init [.getopt [['-', 't', 'a']],
      .initKafka ⟨false, true, some 1, true⟩, .testRun, .poll none] =
        some ⟨.loop, 1, none, some ['a'], none,
          [.setGroupId defaultGroup, .enterLoop] ++ [.consumerPoll none]⟩ := rfl
  exact not_live_none _ (respects_concat.mp (h _ _ hrun)).2

end LearnFramework.Kafka.Consumer
