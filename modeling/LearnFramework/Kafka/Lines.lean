import LearnFramework.Kafka.Producer
import Mathlib.Data.Nat.Find

/-!
# Lines and messages

Without NUL bytes the producer hands over each text of a chunk once, in order,
however often the queue is full. A line of 512 bytes or more is read in several
chunks, and each one becomes a message of its own. So the messages are the
non-empty lines exactly when no line has more than 511 bytes.
-/

namespace LearnFramework.Kafka.Producer

open Machines Stdio

/-- No stop signal, and a call fails only because the queue is full. -/
def Action.Retrying : Action → Prop
  | .stop => False
  | .produce .failed => False
  | _ => True

/-- A line without NUL bytes behind `fgets`. -/
structure Line (c : List UInt8) : Prop where
  ne_nil : c ≠ []
  nul : 0 ∉ c
  newline : 10 ∉ text c
  shape : c = text c ∨ c = text c ++ [10]

/-- The messages that `buf` holds and that have not been accepted. -/
def Holds (s : Producer) (w : List (List UInt8)) : Prop :=
  match s.pc with
  | .strip => ∃ c r, s.buf.1 = c ++ 0 :: r ∧ Line c ∧ w = [text c].filter (· ≠ [])
  | .retry => w = [s.payload]
  | .flush => w = [] ∧ s.stdin = some []
  | .returned 0 => w = [] ∧ s.stdin = some []
  | _ => w = []

/-- What has been accepted, what the buffer holds and what is still to be read. -/
structure Conserves (stdin : List UInt8) (s : Producer) : Prop where
  run : s.run = true
  messages : ∃ rest w, s.stdin = some rest ∧ 0 ∉ rest ∧ s.Holds w ∧
    s.accepted ++ (w ++ texts 511 rest) = texts 511 stdin

theorem line_chunk {rest : List UInt8} (hne : rest ≠ []) (h0 : 0 ∉ rest) :
    Line (chunk 511 rest) where
  ne_nil := chunk_ne_nil hne
  nul h := h0 ((prefix_chunk 511 rest).subset h)
  newline := (chunk_eq_text 511 rest).1
  shape := (chunk_eq_text 511 rest).2

variable {stdin : List UInt8} {buf : Buffer 512}

theorem Conserves.read {s : Producer} (h : s.Conserves stdin) (hpc : s.pc = .fgets)
    {rest : List UInt8} (hrest : s.stdin = some rest) : (s.read rest).Conserves stdin := by
  obtain ⟨hrun, rest', w, hrest', h0, hholds, heq⟩ := h
  rw [hrest, Option.some.injEq] at hrest'
  subst hrest'
  rw [Holds, hpc] at hholds
  subst hholds
  by_cases hne : rest = []
  · subst hne
    exact ⟨hrun, [], [], hrest, h0, ⟨rfl, hrest⟩, heq⟩
  · rw [read_of_ne_nil s hne]
    have h0' : 0 ∉ rest.drop (chunk 511 rest).length := fun h => h0 (List.mem_of_mem_drop h)
    refine ⟨hrun, _, _, rfl, h0', ⟨_, _, rfl, line_chunk hne h0, rfl⟩, ?_⟩
    rw [← texts_of_ne_nil hne]
    exact heq

theorem Conserves.strip {s : Producer} (h : s.Conserves stdin) (hpc : s.pc = .strip)
    (stray : UInt8) : (s.strip stray).Conserves stdin := by
  obtain ⟨hrun, rest, w, hrest, h0, hholds, heq⟩ := h
  rw [Holds, hpc] at hholds
  obtain ⟨c, r, hbuf, hline, rfl⟩ := hholds
  obtain ⟨buf, indices, hstrip, htake⟩ :=
    strip_text hbuf hline.ne_nil hline.nul hline.newline hline.shape stray
  rw [hstrip]
  refine ⟨hrun, rest, _, hrest, h0, ?_, heq⟩
  by_cases hnil : text c = []
  · rw [hnil]
    rfl
  · have hlen : (text c).length ≠ 0 := fun h => hnil (List.length_eq_zero_iff.mp h)
    rw [Holds, stripped, if_neg hlen]
    simp only [payload, htake]
    simp [hnil]

theorem Conserves.produce {s : Producer} (h : s.Conserves stdin) (hpc : s.pc = .retry)
    {outcome : Outcome} (hout : outcome ≠ .failed) : (s.produce outcome).Conserves stdin := by
  obtain ⟨hrun, rest, w, hrest, h0, hholds, heq⟩ := h
  cases outcome with
  | accepted =>
    rw [Holds, hpc] at hholds
    subst hholds
    have haccepted : (s.produce .accepted).accepted = s.accepted ++ [s.payload] := rfl
    refine ⟨hrun, rest, [], hrest, h0, rfl, ?_⟩
    rw [haccepted, List.append_assoc]
    exact heq
  | queueFull =>
    refine ⟨hrun, rest, w, hrest, h0, ?_, heq⟩
    rw [Holds, hpc] at hholds
    simp only [Holds, Producer.produce, hpc]
    exact hholds
  | failed => exact absurd rfl hout

/-- What one step keeps. -/
theorem Conserves.step {s t : Producer} {a : Action} (h : s.Conserves stdin) (ha : a.Retrying)
    (hs : s.step a = some t) : t.Conserves stdin := by
  obtain ⟨hrun, rest, w, hrest, h0, hholds, heq⟩ := id h
  cases step_cases hs with
  | start argc conf rk rkt hpc =>
    rw [Holds, hpc] at hholds
    refine ⟨hrun, rest, w, hrest, h0, ?_, heq⟩
    by_cases hgo : argc = 3 ∧ conf = true ∧ rk = true ∧ rkt = true
    · rw [Holds, if_pos hgo]
      exact hholds
    · rw [Holds, if_neg hgo]
      exact hholds
  | testRun hpc =>
    rw [Holds, hpc] at hholds
    refine ⟨hrun, rest, w, hrest, h0, ?_, heq⟩
    simp only [hrun, Holds]
    exact hholds
  | fgets rest hpc hrest => exact h.read hpc hrest
  | strip stray hpc => exact h.strip hpc stray
  | produce outcome hpc => exact h.produce hpc (by rintro rfl; exact ha)
  | flush hpc =>
    rw [Holds, hpc] at hholds
    exact ⟨hrun, rest, w, hrest, h0, hholds, heq⟩
  | stop hpc => exact absurd ha id

/-- **What has been accepted** when the program ends: the texts of all the chunks. -/
theorem accepted_eq (hnul : 0 ∉ stdin) {acts : List Action} {s : Producer}
    (ha : ∀ a ∈ acts, a.Retrying)
    (h : (producer stdin buf).run (producer stdin buf).init acts = some s)
    (hpc : s.pc = .returned 0) : s.accepted = texts 511 stdin := by
  have hinit : (producer stdin buf).init.Conserves stdin :=
    ⟨rfl, stdin, [], rfl, hnul, rfl, rfl⟩
  suffices hs : s.Conserves stdin by
    obtain ⟨-, rest, w, hrest, -, hholds, heq⟩ := hs
    rw [Holds, hpc] at hholds
    obtain ⟨rfl, hnil⟩ := hholds
    rw [hrest, Option.some.injEq] at hnil
    subst hnil
    simpa [texts] using heq
  generalize (producer stdin buf).init = s₀ at h hinit
  induction acts generalizing s₀ with
  | nil =>
    cases h
    exact hinit
  | cons a acts ih =>
    obtain ⟨u, hu, hr⟩ := Machine.run_cons_some.mp h
    rw [List.forall_mem_cons] at ha
    exact ih ha.2 u hr (hinit.step ha.1 hu)

/-! ## Runs for given outcomes -/

/-- Outcomes of the calls of `rd_kafka_produce`: each failure is a full queue, and
after it a call succeeds. -/
structure Fair (outcomes : Nat → Outcome) : Prop where
  queueFull : ∀ n, outcomes n ≠ .failed
  accepted : ∀ n, ∃ m, n ≤ m ∧ outcomes m = .accepted

theorem Fair.drop {outcomes : Nat → Outcome} (h : Fair outcomes) (k : Nat) :
    Fair fun n => outcomes (k + n) where
  queueFull n := h.queueFull (k + n)
  accepted n := by
    obtain ⟨m, hm, hacc⟩ := h.accepted (k + n)
    exact ⟨m - k, by omega, by rw [Nat.add_sub_cancel' (by omega)]; exact hacc⟩

/-- The calls up to the first success. -/
theorem Fair.exists_first {outcomes : Nat → Outcome} (h : Fair outcomes) :
    ∃ n, (List.range (n + 1)).map outcomes = List.replicate n .queueFull ++ [.accepted] := by
  obtain ⟨m, -, hm⟩ := h.accepted 0
  have hex : ∃ m, outcomes m = .accepted := ⟨m, hm⟩
  refine ⟨Nat.find hex, ?_⟩
  rw [List.range_succ, List.map_append, List.map_singleton, Nat.find_spec hex]
  congr 1
  refine List.eq_replicate_iff.mpr ⟨by simp, fun o ho => ?_⟩
  obtain ⟨i, hi, rfl⟩ := List.mem_map.mp ho
  have hno := Nat.find_min hex (List.mem_range.mp hi)
  have hfail := h.queueFull i
  cases ho : outcomes i with
  | accepted => exact absurd ho hno
  | queueFull => rfl
  | failed => exact absurd ho hfail

/-- A run whose calls of `rd_kafka_produce` have the first `k` outcomes of a sequence. -/
structure Follows (outcomes : Nat → Outcome) (acts : List Action) (k : Nat) : Prop where
  retrying : ∀ a ∈ acts, a.Retrying
  outcomes_eq : acts.filterMap Action.outcome = (List.range k).map outcomes

theorem Follows.append {outcomes : Nat → Outcome} {as bs : List Action} {j k : Nat}
    (ha : Follows outcomes as j) (hb : Follows (fun n => outcomes (j + n)) bs k) :
    Follows outcomes (as ++ bs) (j + k) where
  retrying := List.forall_mem_append.mpr ⟨ha.retrying, hb.retrying⟩
  outcomes_eq := by
    rw [List.filterMap_append, ha.outcomes_eq, hb.outcomes_eq, List.range_add, List.map_append,
      List.map_map]
    rfl

variable (stdin buf)

/-- One line, whatever the outcomes. -/
theorem AtLoop.follows_line {s : Producer} {rest : List UInt8} (h : s.AtLoop rest)
    (hne : rest ≠ []) {outcomes : Nat → Outcome} (hfair : Fair outcomes) :
    ∃ acts t k, (producer stdin buf).run s acts = some t ∧
      t.AtLoop (rest.drop (chunk 511 rest).length) ∧ Follows outcomes acts k := by
  have hrun := h.run_line stdin buf hne 0
  obtain ⟨len, buf', indices, hstrip⟩ := strip_stripped (s.stored rest) 0
  rw [hstrip] at hrun
  by_cases hlen : len = 0
  · refine ⟨_, _, 0, hrun, ⟨if_pos hlen, h.run, rfl⟩, ?_, rfl⟩
    simp [Action.Retrying]
  · obtain ⟨n, hn⟩ := hfair.exists_first
    obtain ⟨t, ht, hloop⟩ := run_retries stdin buf n
      (s := (s.stored rest).stripped len buf' indices) (if_neg hlen) h.run rfl
    refine ⟨_, t, n + 1, Machine.run_append_some hrun ht, hloop, ?_, ?_⟩
    · refine List.forall_mem_append.mpr ⟨by simp [Action.Retrying], ?_⟩
      refine List.forall_mem_append.mpr ⟨fun a ha => ?_, by simp [Action.Retrying]⟩
      rw [List.eq_of_mem_replicate ha]
      trivial
    · rw [hn, List.filterMap_append, retries, List.filterMap_append,
        List.filterMap_replicate_of_some (f := Action.outcome) (b := .queueFull) rfl]
      rfl

/-- From the loop to the end, by induction on the chunks that are left. -/
theorem AtLoop.follows {s : Producer} {rest : List UInt8} (h : s.AtLoop rest)
    {outcomes : Nat → Outcome} (hfair : Fair outcomes) :
    ∃ acts t k, (producer stdin buf).run s acts = some t ∧ t.pc = .returned 0 ∧
      Follows outcomes acts k := by
  induction rest using chunks.induct 511 generalizing s outcomes with
  | case1 =>
    have htest : s.step .testRun = some { s with pc := .fgets } := by
      simp [Producer.step, h.pc, h.run]
    have hread : ({ s with pc := .fgets } : Producer).step .fgets =
        some { s with pc := .flush } := by
      simp only [Producer.step, if_true, h.stdin, Option.map_some]
      rfl
    refine ⟨[.testRun, .fgets, .flush], { s with pc := .returned 0 }, 0, ?_, rfl, ?_, rfl⟩
    · exact Machine.run_cons_some.mpr ⟨_, htest, Machine.run_cons_some.mpr ⟨_, hread, rfl⟩⟩
    · simp [Action.Retrying]
  | case2 rest hne ih =>
    obtain ⟨as, t, j, has, hloop, hfol⟩ := h.follows_line stdin buf hne hfair
    obtain ⟨bs, u, k, hbs, hend, hfol'⟩ := ih hloop (hfair.drop j)
    exact ⟨as ++ bs, u, j + k, Machine.run_append_some has hbs, hend, hfol.append hfol'⟩

/-- Whatever the outcomes, the program ends. -/
theorem exists_run {o : Nat → Outcome} (hfair : Fair o) :
    ∃ acts s k, (producer stdin buf).run (producer stdin buf).init acts = some s ∧
      s.pc = .returned 0 ∧ Follows o acts k := by
  have hstart : ({ (producer stdin buf).init with pc := .loop } : Producer).AtLoop stdin :=
    ⟨rfl, rfl, rfl⟩
  obtain ⟨acts, s, k, hrun, hpc, hfol⟩ := hstart.follows stdin buf hfair
  refine ⟨.start 3 true true true :: acts, s, k, Machine.run_cons_some.mpr ⟨_, rfl, hrun⟩, hpc,
    ?_, hfol.outcomes_eq⟩
  exact List.forall_mem_cons.mpr ⟨trivial, hfol.retrying⟩

/-- **One line, one message.** Without stop signal and without failures other than
a full queue, the messages accepted until the program ends are the non-empty lines
exactly when no line is longer than 511 bytes; and it ends, whenever each failure
is followed by a success. -/
theorem one_line_one_message_iff (stdin : List UInt8) (hnul : 0 ∉ stdin) (buf : Buffer 512) :
    (∀ acts s, (∀ a ∈ acts, a.Retrying) →
      (producer stdin buf).run (producer stdin buf).init acts = some s → s.pc = .returned 0 →
        (s.accepted = lines stdin ↔ ∀ l ∈ stdin.splitOn 10, l.length ≤ 511)) ∧
    ∀ outcomes, Fair outcomes →
      ∃ acts s k, (producer stdin buf).run (producer stdin buf).init acts = some s ∧
        s.pc = .returned 0 ∧ Follows outcomes acts k := by
  refine ⟨fun acts s ha hrun hpc => ?_, fun outcomes hfair => exists_run stdin buf hfair⟩
  rw [accepted_eq hnul ha hrun hpc]
  exact texts_eq_lines_iff 511 stdin

/-- A line and the start of another one. -/
theorem one_line_one_message_run :
    ∃ acts s, (producer [97, 10, 10, 98] ⟨List.replicate 512 0, List.length_replicate⟩).run
      (producer [97, 10, 10, 98] ⟨List.replicate 512 0, List.length_replicate⟩).init acts = some s ∧
        s.accepted = [[97], [98]] := by
  obtain ⟨hiff, hend⟩ := one_line_one_message_iff [97, 10, 10, 98] (by decide)
    ⟨List.replicate 512 0, List.length_replicate⟩
  obtain ⟨acts, s, k, hrun, hpc, hfol⟩ := hend (fun _ => .accepted)
    ⟨fun _ => by simp, fun n => ⟨n, le_rfl, rfl⟩⟩
  exact ⟨acts, s, hrun, (hiff acts s hfol.retrying hrun hpc).mpr (by decide)⟩

/-- A line of 512 bytes. -/
theorem long_line_in_two_messages :
    ¬∀ stdin buf, 0 ∉ stdin → ∀ acts s, (∀ a ∈ acts, a.Retrying) →
      (producer stdin buf).run (producer stdin buf).init acts = some s → s.pc = .returned 0 →
        s.accepted = lines stdin := by
  intro h
  have h0 : (0 : UInt8) ∉ List.replicate 512 97 := fun hm =>
    absurd (List.eq_of_mem_replicate hm) (by decide)
  have h10 : (10 : UInt8) ∉ List.replicate 512 97 := fun hm =>
    absurd (List.eq_of_mem_replicate hm) (by decide)
  obtain ⟨acts, s, k, hrun, hpc, hfol⟩ := exists_run (List.replicate 512 97)
    ⟨List.replicate 512 0, List.length_replicate⟩ (o := fun _ => .accepted)
    ⟨fun _ => by simp, fun n => ⟨n, le_rfl, rfl⟩⟩
  have hlines := h _ _ h0 acts s hfol.retrying hrun hpc
  rw [accepted_eq h0 hfol.retrying hrun hpc, texts_eq_lines_iff, List.splitOn_eq_singleton h10,
    List.forall_mem_singleton, List.length_replicate] at hlines
  omega

end LearnFramework.Kafka.Producer
