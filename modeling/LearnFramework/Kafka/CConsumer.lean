import LearnFramework.Lib.Machine
import LearnFramework.Lib.Ostream
import Mathlib.Logic.Function.Basic

/-!
# The consumer in C++

`Init`, `Consume` and `consumer` of `CConsumer`, for any number of objects, which
share `run_`. What the calls of RdKafka return is in the actions. A null pointer is
`none`; what happens behind a method call through one is not defined, so the process
takes no further step. What goes to `std::cerr` is left out.
-/

namespace LearnFramework.Kafka

open Machines Ostreams

namespace CConsumer

abbrev Pointer := Option Nat

/-- The codes that `Init` and `consumer` distinguish. -/
inductive ErrorCode where
  | noError
  | timedOut
  | partitionEof
  | unknownTopic
  | unknownPartition
  | other
  deriving DecidableEq, Repr

inductive Payload where
  | null
  /-- with what lies in memory behind it, up to a NUL -/
  | at (bytes behind : List UInt8)
  deriving DecidableEq, Repr

structure Message where
  err : ErrorCode
  payload : Payload
  offset : Int
  deriving DecidableEq, Repr

/-- What the calls of `Init` return. -/
structure Outcome where
  conf : Bool
  consumer : Pointer
  tconf : Bool
  topic : Pointer
  start : ErrorCode
  deriving DecidableEq, Repr

inductive Call where
  | set (key value : String)
  | createTopic (consumer : Pointer) (topic : String)
  | start (consumer topic : Pointer) (partition offset : Int)
  | consume (consumer topic : Pointer) (partition timeout : Int)
  | poll (consumer : Pointer) (timeout : Int)
  | stop (consumer topic : Pointer) (partition : Int)
  | delete (object : Nat)
  | waitDestroyed (timeout : Int)
  deriving DecidableEq, Repr

inductive Pc (ι : Type*) where
  /-- no method of a `CConsumer` is running -/
  | idle
  /-- at the loop of `Consume` -/
  | loop (i : ι) (timeout : Int)
  | undefined

/-- The methods that a caller can call, the turns and the end of `Consume`, and the
signal handler. -/
inductive Action (ι : Type*) where
  | init (i : ι) (o : Outcome)
  | consume (i : ι) (timeout : Int)
  | turn (message : Message)
  /-- a turn that calls `consume` through a null pointer -/
  | fault
  | leave
  | sigterm

end CConsumer

open CConsumer

structure CConsumer where
  brokers : String
  topics : String
  groupid : String
  lastOffset : Int := 0
  kafkaConsumer : Pointer := none
  topic : Pointer := none
  offset : Int
  partition : Int := 0

namespace CConsumer

def Payload.bytes : Payload → List UInt8
  | null => []
  | .at bytes _ => bytes

/-- What lies at the pointer. -/
def Payload.memory : Payload → Option (List UInt8)
  | null => none
  | .at bytes behind => some (bytes ++ behind)

/-- `static_cast<int>(message->len())`, as it is printed. -/
def Payload.len (p : Payload) : List UInt8 :=
  (toString (BitVec.ofNat 32 p.bytes.length).toInt).toUTF8.toList

def lenLabel : List UInt8 := "message len : ".toUTF8.toList

def payloadLabel : List UInt8 := "message payload : ".toUTF8.toList

/-- The calls of `Init`, and its result when it returns. -/
def Init (c : CConsumer) (o : Outcome) : CConsumer × List Call × Option Bool :=
  if !o.conf then (c, [], some false)
  else
    let c := { c with kafkaConsumer := o.consumer }
    let calls := [.set "bootstrap.servers" c.brokers, .set "group.id" c.groupid]
    if !o.tconf then (c, calls, some false)
    else
      let calls := calls ++
        [.set "auto.offset.reset" "smallest", .createTopic c.kafkaConsumer c.topics]
      let c := { c with topic := o.topic }
      let calls := calls ++ [.start c.kafkaConsumer c.topic c.partition c.offset]
      (c, calls, if c.kafkaConsumer = none then none else some true)

/-- The two lines of `consumer` on `std::cout`. -/
def print (cout : Ostream) (p : Payload) : Ostream :=
  let cout := (cout.insert lenLabel).insert p.len |>.endl
  ((cout.insert payloadLabel).insertCString p.memory).endl

/-- The messages that are printed. -/
def Message.printed (message : Message) : Bool :=
  match message.err with
  | .noError => true
  | .partitionEof => true
  | _ => false

end CConsumer

/-- The objects, the flag `run_` and `std::cout`. -/
structure Process (ι : Type*) where
  pc : Pc ι
  run : Bool
  object : ι → CConsumer
  cout : Ostream
  calls : List Call
  /-- the calls of `Init` that have returned, with their results -/
  inits : List (ι × Outcome × Bool)

namespace Process

variable {ι : Type*} [DecidableEq ι]

def init (s : Process ι) (i : ι) (o : Outcome) : Process ι :=
  let (c, calls, result) := (s.object i).Init o
  { s with
    pc := if result = none then .undefined else .idle
    object := Function.update s.object i c
    calls := s.calls ++ calls
    inits := s.inits ++ (result.map fun b => (i, o, b)).toList }

/-- The method `consumer`, called for the object `i`. -/
def consumer (s : Process ι) (i : ι) (message : Message) : Process ι :=
  let c := s.object i
  match message.err with
  | .timedOut => s
  | .noError =>
    { s with
      cout := print s.cout message.payload
      object := Function.update s.object i { c with lastOffset := message.offset } }
  | .partitionEof => { s with cout := print s.cout message.payload }
  | .unknownTopic => { s with run := false }
  | .unknownPartition => { s with run := false }
  | .other => { s with run := false }

def turn (s : Process ι) (i : ι) (timeout : Int) (message : Message) : Process ι :=
  let c := s.object i
  let t := s.consumer i message
  { t with
    calls := t.calls ++
      [.consume c.kafkaConsumer c.topic c.partition timeout, .poll c.kafkaConsumer 0] }

/-- `Consume` behind its loop. -/
def leave (s : Process ι) (i : ι) : Process ι :=
  let c := s.object i
  let s := { s with calls := s.calls ++ [Call.stop c.kafkaConsumer c.topic c.partition] }
  if c.kafkaConsumer = none then { s with pc := .undefined }
  else
    { s with
      pc := .idle
      object := Function.update s.object i { c with topic := none, kafkaConsumer := none }
      calls := s.calls ++ c.topic.toList.map Call.delete ++
        c.kafkaConsumer.toList.map Call.delete ++ [Call.waitDestroyed 5000] }

def step (s : Process ι) : Action ι → Option (Process ι)
  | .init i o =>
    match s.pc with
    | .idle => some (s.init i o)
    | _ => none
  | .consume i timeout =>
    match s.pc with
    | .idle => some { s with pc := .loop i timeout }
    | _ => none
  | .turn message =>
    match s.pc with
    | .loop i timeout =>
      if s.run ∧ (s.object i).kafkaConsumer ≠ none then some (s.turn i timeout message) else none
    | _ => none
  | .fault =>
    match s.pc with
    | .loop i timeout =>
      let c := s.object i
      if s.run ∧ c.kafkaConsumer = none then
        some { s with
          pc := .undefined
          calls := s.calls ++ [.consume c.kafkaConsumer c.topic c.partition timeout] }
      else none
    | _ => none
  | .leave =>
    match s.pc with
    | .loop i _ => if s.run then none else some (s.leave i)
    | _ => none
  | .sigterm =>
    match s.pc with
    | .undefined => none
    | _ => some { s with run := false }

/-- What the steps are. -/
inductive Step (s : Process ι) : Action ι → Process ι → Prop where
  | init (i : ι) (o : Outcome) (hpc : s.pc = .idle) : Step s (.init i o) (s.init i o)
  | consume (i : ι) (timeout : Int) (hpc : s.pc = .idle) :
      Step s (.consume i timeout) { s with pc := .loop i timeout }
  | turn (i : ι) (timeout : Int) (message : Message) (hpc : s.pc = .loop i timeout)
      (hrun : s.run = true) (hc : (s.object i).kafkaConsumer ≠ none) :
      Step s (.turn message) (s.turn i timeout message)
  | fault (i : ι) (timeout : Int) (hpc : s.pc = .loop i timeout) (hrun : s.run = true)
      (hc : (s.object i).kafkaConsumer = none) :
      Step s .fault { s with
        pc := .undefined
        calls := s.calls ++ [.consume none (s.object i).topic (s.object i).partition timeout] }
  | leave (i : ι) (timeout : Int) (hpc : s.pc = .loop i timeout) (hrun : s.run = false) :
      Step s .leave (s.leave i)
  | sigterm (hpc : s.pc ≠ .undefined) : Step s .sigterm { s with run := false }

theorem step_cases {s t : Process ι} {a : Action ι} (h : s.step a = some t) : Step s a t := by
  cases a with
  | init i o =>
    cases hpc : s.pc with
    | idle =>
      simp only [step, hpc, Option.some.injEq] at h
      subst h
      exact .init i o hpc
    | loop j timeout => simp [step, hpc] at h
    | undefined => simp [step, hpc] at h
  | consume i timeout =>
    cases hpc : s.pc with
    | idle =>
      simp only [step, hpc, Option.some.injEq] at h
      subst h
      exact .consume i timeout hpc
    | loop j timeout => simp [step, hpc] at h
    | undefined => simp [step, hpc] at h
  | turn message =>
    cases hpc : s.pc with
    | idle => simp [step, hpc] at h
    | loop i timeout =>
      simp only [step, hpc, Option.ite_none_right_eq_some, Option.some.injEq] at h
      obtain ⟨⟨hrun, hc⟩, rfl⟩ := h
      exact .turn i timeout message hpc hrun hc
    | undefined => simp [step, hpc] at h
  | fault =>
    cases hpc : s.pc with
    | idle => simp [step, hpc] at h
    | loop i timeout =>
      simp only [step, hpc, Option.ite_none_right_eq_some, Option.some.injEq] at h
      obtain ⟨⟨hrun, hc⟩, rfl⟩ := h
      rw [hc]
      exact .fault i timeout hpc hrun hc
    | undefined => simp [step, hpc] at h
  | leave =>
    cases hpc : s.pc with
    | idle => simp [step, hpc] at h
    | loop i timeout =>
      simp only [step, hpc, Option.ite_none_left_eq_some, Option.some.injEq] at h
      obtain ⟨hrun, rfl⟩ := h
      exact .leave i timeout hpc (by simpa using hrun)
    | undefined => simp [step, hpc] at h
  | sigterm =>
    simp only [step] at h
    split at h
    · cases h
    · rename_i hpc
      cases h
      exact .sigterm hpc

end Process

/-- The arguments of the constructor. -/
structure Settings where
  brokers : String
  topic : String
  groupid : String
  offset : Int

def CConsumer.new (a : Settings) : CConsumer where
  brokers := a.brokers
  topics := a.topic
  groupid := a.groupid
  offset := a.offset

def process {ι : Type*} [DecidableEq ι] (settings : ι → Settings) :
    Machine (Process ι) (Action ι) where
  init := ⟨.idle, true, fun i => .new (settings i), ⟨[], true⟩, [], []⟩
  step := Process.step

end LearnFramework.Kafka
