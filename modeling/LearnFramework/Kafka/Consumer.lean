import LearnFramework.Lib.Getopt
import LearnFramework.Lib.Machine

/-!
# The consumer

`main`, `initKafka`, `msg_consume` and the handler of `SIGINT` as a machine. What
the calls of librdkafka return is in the actions, and `calls` is the log of the
calls that take the handle, the group or the topic. A null pointer is `none`;
`brokers` is left out, since `initKafka` does not read it.
-/

namespace LearnFramework.Kafka

open Machines

namespace Consumer

inductive Pc where
  | options
  | initKafka
  /-- at the test of `run` -/
  | loop
  | poll
  | close
  | destroy
  /-- at the test of the countdown -/
  | wait
  | check
  | returned
  /-- by the handler -/
  | exited
  deriving DecidableEq, Repr

/-- The errors of a message that `msg_consume` distinguishes. -/
inductive RespErr where
  | partitionEof
  | unknownPartition
  | unknownTopic
  | other
  deriving DecidableEq, Repr

/-- A handle or a null pointer. -/
abbrev Handle := Option Nat

inductive Call where
  | setGroupId (group : List Char)
  | new (rk : Handle)
  | pollSetConsumer (rk : Handle)
  | listAdd (topic : Option (List Char))
  | subscribe (rk : Handle) (ok : Bool)
  /-- not a call: `main` goes to its poll loop -/
  | enterLoop
  | consumerPoll (rk : Handle)
  | consumerClose (rk : Handle)
  | destroy (rk : Handle)
  | waitDestroyed
  | dump (rk : Handle)
  deriving DecidableEq, Repr

/-- What the calls of `initKafka` return. -/
structure Init where
  groupId : Bool
  storeMethod : Bool
  new : Handle
  subscribe : Bool
  deriving DecidableEq, Repr

inductive Action where
  | getopt (args : List (List Char))
  | initKafka (init : Init)
  | testRun
  /-- no message, or a message with its error -/
  | poll (message : Option (Option RespErr))
  | close
  | destroy
  /-- a call of `rd_kafka_wait_destroyed`, which returns -1 when it timed out -/
  | wait (timedOut : Bool)
  | giveUp
  | check
  | sigint
  deriving DecidableEq, Repr

def optstring : List Char :=
  ['g', ':', 'b', ':', 't', ':', 'q', 'd', ':', 'e', 'X', ':', 'A', 's', ':', 'D', 'O']

def defaultGroup : List Char :=
  ['r', 'd', 'k', 'a', 'f', 'k', 'a', '_', 'c', 'o', 'n', 's', 'u', 'm', 'e', 'r', '_',
    'e', 'x', 'a', 'm', 'p', 'l', 'e']

end Consumer

open Consumer

structure Consumer where
  pc : Consumer.Pc
  run : Int
  group : Option (List Char)
  topic : Option (List Char)
  rk : Handle
  calls : List Call

namespace Consumer

/-- `stop`. -/
def stop (s : Consumer) : Consumer :=
  if s.run = 0 then { s with pc := .exited } else { s with run := 0 }

/-- The `switch` of `main`; the other options have no effect. -/
def setOption (s : Consumer) : Getopt.Opt → Consumer
  | ('g', optarg) => { s with group := optarg }
  | ('t', optarg) => { s with topic := optarg }
  | _ => s

def options (s : Consumer) (args : List (List Char)) : Consumer :=
  (Getopt.getopt optstring args).foldl setOption s

def log (s : Consumer) (c : Call) : Consumer := { s with calls := s.calls ++ [c] }

def initKafka (s : Consumer) (init : Init) : Consumer × Int :=
  let s := s.log (.setGroupId (s.group.getD defaultGroup))
  if !init.groupId then (s, -1)
  else if !init.storeMethod then (s, -1)
  else
    let s := { s with rk := init.new }.log (.new init.new)
    if s.rk = none then (s, -1)
    else
      let s := s.log (.pollSetConsumer s.rk) |>.log (.listAdd s.topic)
      let s := s.log (.subscribe s.rk init.subscribe)
      if !init.subscribe then (s, -1) else (s, 1)

def msgConsume (s : Consumer) : Option RespErr → Consumer
  | some .unknownPartition => { s with run := 0 }
  | some .unknownTopic => { s with run := 0 }
  | _ => s

/-- `main` behind the call of `initKafka`: it fails with -1, and 0 is tested for. -/
def branch : Consumer × Int → Consumer
  | (s, 0) => { s with pc := .close }
  | (s, _) => { s with pc := .loop }.log .enterLoop

def step (s : Consumer) : Action → Option Consumer
  | .getopt args =>
    if s.pc = .options then some { s.options args with pc := .initKafka } else none
  | .initKafka init => if s.pc = .initKafka then some (branch (s.initKafka init)) else none
  | .testRun =>
    if s.pc = .loop then some { s with pc := if s.run = 0 then .close else .poll } else none
  | .poll message =>
    if s.pc = .poll then
      let s := { s with pc := .loop }.log (.consumerPoll s.rk)
      some (message.elim s s.msgConsume)
    else none
  | .close =>
    if s.pc = .close then some ({ s with pc := .destroy }.log (.consumerClose s.rk)) else none
  | .destroy =>
    if s.pc = .destroy then some ({ s with pc := .wait, run := 5 }.log (.destroy s.rk)) else none
  | .wait timedOut =>
    if s.pc = .wait ∧ 0 < s.run then
      let s := { s with run := s.run - 1, pc := if timedOut then .wait else .check }
      some (s.log .waitDestroyed)
    else none
  | .giveUp =>
    if s.pc = .wait ∧ ¬0 < s.run then some { s with run := s.run - 1, pc := .check } else none
  | .check =>
    if s.pc = .check then
      let s := { s with pc := .returned }
      some (if s.run ≤ 0 then s.log (.dump s.rk) else s)
    else none
  | .sigint =>
    if s.pc = .options ∨ s.pc = .returned ∨ s.pc = .exited then none else some s.stop

/-- What the steps are; a message may have ended the loop. -/
inductive Step (s : Consumer) : Action → Consumer → Prop where
  | getopt (args : List (List Char)) (hpc : s.pc = .options) :
      Step s (.getopt args) { s.options args with pc := .initKafka }
  | initKafka (init : Init) (hpc : s.pc = .initKafka) :
      Step s (.initKafka init) (branch (s.initKafka init))
  | testRun (hpc : s.pc = .loop) :
      Step s .testRun { s with pc := if s.run = 0 then .close else .poll }
  | poll (message : Option (Option RespErr)) (run : Int) (hpc : s.pc = .poll) :
      Step s (.poll message) ({ s with pc := .loop, run := run }.log (.consumerPoll s.rk))
  | close (hpc : s.pc = .close) :
      Step s .close ({ s with pc := .destroy }.log (.consumerClose s.rk))
  | destroy (hpc : s.pc = .destroy) :
      Step s .destroy ({ s with pc := .wait, run := 5 }.log (.destroy s.rk))
  | wait (timedOut : Bool) (hpc : s.pc = .wait) (hrun : 0 < s.run) :
      Step s (.wait timedOut)
        ({ s with run := s.run - 1, pc := if timedOut then .wait else .check }.log .waitDestroyed)
  | giveUp (hpc : s.pc = .wait) (hrun : ¬0 < s.run) :
      Step s .giveUp { s with run := s.run - 1, pc := .check }
  | dump (hpc : s.pc = .check) (hrun : s.run ≤ 0) :
      Step s .check ({ s with pc := .returned }.log (.dump s.rk))
  | finish (hpc : s.pc = .check) (hrun : ¬s.run ≤ 0) : Step s .check { s with pc := .returned }
  | sigint (hpc : ¬(s.pc = .options ∨ s.pc = .returned ∨ s.pc = .exited)) :
      Step s .sigint s.stop

theorem msgConsume_eq (s : Consumer) (err : Option RespErr) :
    ∃ r, s.msgConsume err = { s with run := r } := by
  unfold msgConsume
  split
  · exact ⟨0, rfl⟩
  · exact ⟨0, rfl⟩
  · exact ⟨s.run, rfl⟩

theorem step_cases {s t : Consumer} {a : Action} (h : s.step a = some t) : Step s a t := by
  cases a with
  | sigint =>
    simp only [step, Option.ite_none_left_eq_some, Option.some.injEq] at h
    obtain ⟨hpc, rfl⟩ := h
    exact .sigint hpc
  | poll message =>
    simp only [step, Option.ite_none_right_eq_some, Option.some.injEq] at h
    obtain ⟨hpc, rfl⟩ := h
    cases message with
    | none => exact .poll none s.run hpc
    | some err =>
      obtain ⟨r, hr⟩ := msgConsume_eq ({ s with pc := .loop }.log (.consumerPoll s.rk)) err
      rw [Option.elim_some, hr]
      exact .poll (some err) r hpc
  | check =>
    simp only [step, Option.ite_none_right_eq_some, Option.some.injEq] at h
    obtain ⟨hpc, rfl⟩ := h
    split
    case isTrue hrun => exact .dump hpc hrun
    case isFalse hrun => exact .finish hpc hrun
  | getopt args =>
    simp only [step, Option.ite_none_right_eq_some, Option.some.injEq] at h
    obtain ⟨hpc, rfl⟩ := h
    exact .getopt args hpc
  | initKafka init =>
    simp only [step, Option.ite_none_right_eq_some, Option.some.injEq] at h
    obtain ⟨hpc, rfl⟩ := h
    exact .initKafka init hpc
  | testRun =>
    simp only [step, Option.ite_none_right_eq_some, Option.some.injEq] at h
    obtain ⟨hpc, rfl⟩ := h
    exact .testRun hpc
  | close =>
    simp only [step, Option.ite_none_right_eq_some, Option.some.injEq] at h
    obtain ⟨hpc, rfl⟩ := h
    exact .close hpc
  | destroy =>
    simp only [step, Option.ite_none_right_eq_some, Option.some.injEq] at h
    obtain ⟨hpc, rfl⟩ := h
    exact .destroy hpc
  | wait timedOut =>
    simp only [step, Option.ite_none_right_eq_some, Option.some.injEq] at h
    obtain ⟨⟨hpc, hrun⟩, rfl⟩ := h
    exact .wait timedOut hpc hrun
  | giveUp =>
    simp only [step, Option.ite_none_right_eq_some, Option.some.injEq] at h
    obtain ⟨⟨hpc, hrun⟩, rfl⟩ := h
    exact .giveUp hpc hrun

end Consumer

def consumer : Machine Consumer Consumer.Action where
  init := ⟨.options, 1, none, none, none, []⟩
  step := Consumer.step

end LearnFramework.Kafka
