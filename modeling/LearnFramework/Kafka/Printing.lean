import LearnFramework.Kafka.CConsumer
import LearnFramework.Lib.Protocol

/-!
# What the consumer in C++ prints

A payload is counted but is printed as a C string, so it comes out as it is when it
has no NUL and one lies behind it. A null payload makes `std::cout` fail, and nothing
is printed from then on.
-/

namespace LearnFramework.Kafka

open Machines Protocols Ostreams CConsumer

namespace CConsumer

def Payload.header (p : Payload) : List UInt8 := lenLabel ++ p.len ++ [10] ++ payloadLabel

/-- The bytes of the payload behind its label; the line ends unless the payload is null. -/
def Payload.lines (p : Payload) : List UInt8 :=
  p.header ++ p.bytes ++ if p = .null then [] else [10]

/-- Printed as a C string, the payload comes out as it is. -/
def Payload.Terminated : Payload → Prop
  | null => True
  | .at bytes behind => 0 ∉ bytes ∧ cString behind = []

/-! ## One message -/

theorem Payload.header_ne_nil (p : Payload) : p.header ≠ [] := by simp [Payload.header]

theorem print_good (cout : Ostream) (p : Payload) :
    (print cout p).good = (cout.good && decide (p ≠ .null)) := by
  cases p with
  | null => simp [print, Ostream.insertCString_good, Payload.memory]
  | «at» bytes behind => simp [print, Ostream.insertCString_good, Payload.memory]

theorem print_text (cout : Ostream) (p : Payload) :
    (print cout p).text = cout.text ++ if cout.good then
      p.header ++ p.memory.elim [] fun memory => cString memory ++ [10] else [] := by
  simp only [print, Ostream.endl_text, Ostream.endl_good, Ostream.insertCString_text,
    Ostream.insertCString_good, Ostream.insert_text, Ostream.insert_good]
  cases cout.good with
  | false => simp
  | true =>
    cases p.memory with
    | none => simp [Payload.header]
    | some memory => simp [Payload.header]

/-- What is printed is the payload exactly when the stream is good and the payload is
terminated. -/
theorem print_eq_iff (cout : Ostream) (p : Payload) :
    (print cout p).text = cout.text ++ p.lines ↔ cout.good = true ∧ p.Terminated := by
  rw [print_text, List.append_cancel_left_eq, Payload.lines]
  cases cout.good with
  | false => simp [Payload.header_ne_nil]
  | true =>
    rw [if_pos rfl, List.append_assoc, List.append_cancel_left_eq]
    cases p with
    | null => simp [Payload.memory, Payload.bytes, Payload.Terminated]
    | «at» bytes behind =>
      simp only [Payload.memory, Payload.bytes, Payload.Terminated, Option.elim_some,
        reduceCtorEq, if_false, List.append_cancel_right_eq, true_and]
      exact cString_append_eq_iff

end CConsumer

/-! ## Runs -/

variable {ι : Type*} [DecidableEq ι]

namespace Process

theorem turn_cout (s : Process ι) (i : ι) (timeout : Int) (message : Message) :
    (s.turn i timeout message).cout =
      if message.printed then print s.cout message.payload else s.cout := by
  obtain ⟨err, payload, offset⟩ := message
  cases err <;> rfl

/-- Only a turn prints. -/
theorem step_cout {s t : Process ι} {a : Action ι} (hs : s.step a = some t) :
    t.cout = match a with
      | .turn message => if message.printed then print s.cout message.payload else s.cout
      | _ => s.cout := by
  cases step_cases hs with
  | turn i timeout message hpc hrun hc => exact turn_cout s i timeout message
  | leave i timeout hpc hrun =>
    simp only [leave]
    split <;> rfl
  | _ => rfl

end Process

variable (settings : ι → Settings)

namespace CConsumer

/-- No null payload has been printed. -/
def NoNull (past : List (Action ι)) : Prop :=
  ∀ message, .turn message ∈ past → message.printed = true → message.payload ≠ .null

/-- A message without an error is printed as it is. -/
def Faithful (past : List (Action ι)) : Action ι → Prop
  | .turn message => message.err = .noError → ∀ s t,
    (process settings).run (process settings).init past = some s →
    s.step (.turn message) = some t → t.cout.text = s.cout.text ++ message.payload.lines
  | _ => True

def Printable (past : List (Action ι)) : Action ι → Prop
  | .turn message => message.err = .noError → NoNull past ∧ message.payload.Terminated
  | _ => True

end CConsumer

/-- `std::cout` is good as long as no null payload has been printed. -/
theorem good_iff {acts : List (Action ι)} {s : Process ι}
    (h : (process settings).run (process settings).init acts = some s) :
    s.cout.good = true ↔ NoNull acts := by
  induction acts using List.reverseRecOn generalizing s with
  | nil =>
    cases h
    exact iff_of_true rfl nofun
  | append_singleton past a ih =>
    rw [Machine.run_concat, Option.bind_eq_some_iff] at h
    obtain ⟨u, hu, hs⟩ := h
    have hnoNull : NoNull (past ++ [a]) ↔ NoNull past ∧ NoNull [a] := by
      simp only [NoNull, List.mem_append, or_imp, forall_and]
    rw [hnoNull, ← ih hu, Process.step_cout hs]
    cases a with
    | turn message =>
      cases hprinted : message.printed with
      | true => simp [NoNull, print_good, hprinted]
      | false => simp [NoNull, hprinted]
    | _ => simp [NoNull]

/-- **What is printed** behind each label is the payload exactly when the payloads
are terminated and none of those printed before is null. -/
theorem faithful_iff (acts : List (Action ι)) (s : Process ι)
    (h : (process settings).run (process settings).init acts = some s) :
    Respects (Faithful settings) acts ↔ Respects Printable acts := by
  induction acts using List.reverseRecOn generalizing s with
  | nil => exact iff_of_true respects_nil respects_nil
  | append_singleton past a ih =>
    rw [Machine.run_concat, Option.bind_eq_some_iff] at h
    obtain ⟨u, hu, hs⟩ := h
    rw [respects_concat, respects_concat, ih u hu]
    refine and_congr_right fun _ => ?_
    cases a with
    | turn message =>
      refine forall_congr' fun herr => ?_
      have hprinted : message.printed = true := by rw [Message.printed, herr]
      have hstep : u.step (.turn message) = some s := hs
      have hcout := Process.step_cout hstep
      simp only [hprinted, if_true] at hcout
      rw [← good_iff settings hu, ← print_eq_iff]
      constructor
      · intro hfaithful
        rw [← hcout]
        exact hfaithful u s hu hs
      · intro htext u' t hu' hs'
        cases hu.symm.trans hu'
        cases hs.symm.trans hs'
        rw [hcout]
        exact htext
    | _ => exact Iff.rfl

/-- `main` with a message. -/
theorem faithful_message :
    Respects (Faithful fun _ : Unit => ⟨"192.168.0.18:9092", "test_2", "1", 0⟩)
      ([] ++ [.init () ⟨true, some 1, true, some 2, .noError⟩] ++ [.consume () 1000] ++
        [.turn ⟨.noError, .at [97, 98] [], 0⟩]) := by
  rw [faithful_iff _ _ _ rfl]
  simp only [respects_concat, respects_nil, Printable, true_and]
  exact fun _ => ⟨by simp [NoNull], by simp, rfl⟩

/-- A payload with a NUL is cut off. -/
theorem nul_cuts_payload : ¬∀ acts s,
    (process fun _ : Unit => ⟨"192.168.0.18:9092", "test_2", "1", 0⟩).run
      (process fun _ : Unit => ⟨"192.168.0.18:9092", "test_2", "1", 0⟩).init acts = some s →
    Respects (Faithful fun _ : Unit => ⟨"192.168.0.18:9092", "test_2", "1", 0⟩) acts := by
  intro h
  have hfaithful := h ([.init () ⟨true, some 1, true, some 2, .noError⟩, .consume () 1000] ++
    [.turn ⟨.noError, .at [97, 0, 98] [], 0⟩]) _ rfl
  have htext := (respects_concat.mp hfaithful).2 rfl _ _ rfl rfl
  obtain ⟨-, hterminated⟩ := (print_eq_iff _ _).mp htext
  exact hterminated.1 (by simp)

end LearnFramework.Kafka
