import LearnFramework.Lib.Machine

/-!
# Servers with a polling thread

The thread of a server starts one operation after the other on a socket, polls until it
has completed, and looks at the result; some results end the thread. The owner replaces
and destroys servers: a destructor cancels the operation, closes the socket and joins the
thread, while the thread goes on.

* `Server.run`: the loop of the thread on a list of results, and `Faithful`: that is what
  a thread has done, in any interleaving with its owner;
* `join_returns`: behind the close a thread takes at most five steps and sees at most two
  results, and it can take the next one, so the join returns.
-/

namespace PollLoops

open Machines

variable {σ C Setup : Type*}

/-- What a server does with the results of its operations. -/
structure Server (σ C : Type*) where
  ends : C → Bool
  /-- a result that does not end the thread -/
  turn : σ → C → σ
  /-- one that does -/
  finish : σ → C → σ
  /-- the result of an operation that is cancelled -/
  aborted : C
  /-- the result of an operation on a closed socket -/
  badSocket : C
  ends_aborted : ends aborted = true
  ends_badSocket : ends badSocket = true

/-- The loop on the results in order, and whether it has ended. -/
def Server.run (server : Server σ C) (s : σ) : List C → σ × Bool
  | [] => (s, false)
  | c :: cs => if server.ends c then (server.finish s c, true) else server.run (server.turn s c) cs

/-- Where the thread of a server is. -/
inductive Spot (C : Type*) where
  /-- no thread was started -/
  | none
  /-- about to start an operation -/
  | top
  /-- an operation is outstanding -/
  | pending
  /-- it has completed, and its handler is queued -/
  | ready (c : C)
  /-- the handler has run -/
  | done (c : C)
  /-- the thread function has returned -/
  | left

namespace Spot

def isLeft : Spot C → Bool
  | .left => true
  | _ => false

/-- There is no thread to wait for. -/
def joined : Spot C → Bool
  | .none => true
  | .left => true
  | _ => false

end Spot

structure Loop (σ C : Type*) where
  state : σ
  spot : Spot C
  closed : Bool
  /-- the results that the thread has looked at; no code reads it -/
  seen : List C

/-- The steps of a thread; `complete` is the step of the operating system. -/
inductive Act (C : Type*) where
  | start
  | complete (c : C)
  | poll
  | check

/-- The thread takes this step itself. -/
def Act.ofThread : Act C → Bool
  | .complete _ => false
  | _ => true

namespace Loop

/-- A server that is just constructed. -/
def new (s : σ) (started : Bool) : Loop σ C := ⟨s, if started then .top else .none, false, []⟩

def step (server : Server σ C) (l : Loop σ C) : Act C → Option (Loop σ C)
  | .start =>
    match l.spot with
    | .top => some { l with spot := if l.closed then .ready server.badSocket else .pending }
    | _ => none
  | .complete c =>
    match l.spot with
    | .pending => some { l with spot := .ready c }
    | _ => none
  | .poll =>
    match l.spot with
    | .ready c => some { l with spot := .done c }
    | _ => none
  | .check =>
    match l.spot with
    | .done c =>
      some (if server.ends c then
        { l with spot := .left, state := server.finish l.state c, seen := l.seen ++ [c] }
      else { l with spot := .top, state := server.turn l.state c, seen := l.seen ++ [c] })
    | _ => none

/-- Cancel the operation that is outstanding. -/
def cancel (server : Server σ C) (l : Loop σ C) : Loop σ C :=
  match l.spot with
  | .pending => { l with spot := .ready server.aborted }
  | _ => l

/-- Close the socket, which cancels too. -/
def close (server : Server σ C) (l : Loop σ C) : Loop σ C :=
  { l.cancel server with closed := true }

end Loop

/-- A server with its constructor and destructor. -/
structure Owned (Setup σ C : Type*) extends Server σ C where
  new : Setup → σ
  /-- the constructor has started the thread -/
  started : σ → Bool
  /-- nothing in the destructor throws -/
  destructible : σ → Bool

/-- The next statement of a destructor. -/
inductive Destructor where
  | cancelling
  | closing
  | joining
  deriving DecidableEq, Repr

structure Owner (σ C : Type*) where
  current : Option (Loop σ C)
  /-- the server that the owner is destroying -/
  dying : Option (Loop σ C × Destructor)
  /-- a destructor has thrown -/
  terminated : Bool

inductive OwnerAct (Setup C : Type*) where
  /-- construct a server, and destroy the one before -/
  | start (setup : Setup)
  | stop
  | destroy
  | thread (a : Act C)
  | dyingThread (a : Act C)

namespace OwnerAct

def isDyingThread : OwnerAct Setup C → Bool
  | .dyingThread _ => true
  | _ => false

end OwnerAct

namespace Owner

variable (owned : Owned Setup σ C)

/-- The next statement of the destructor; a join waits for the thread. -/
def destroy (s : Owner σ C) : Loop σ C × Destructor → Option (Owner σ C)
  | (l, .cancelling) =>
    if owned.destructible l.state then
      some { s with dying := some (l.cancel owned.toServer, .closing) }
    else some { s with terminated := true }
  | (l, .closing) => some { s with dying := some (l.close owned.toServer, .joining) }
  | (l, .joining) => if l.spot.joined then some { s with dying := none } else none

def step (s : Owner σ C) (a : OwnerAct Setup C) : Option (Owner σ C) :=
  if s.terminated then none
  else
    match a with
    | .start setup =>
      if s.dying.isNone then
        some { s with
          current := some (.new (owned.new setup) (owned.started (owned.new setup)))
          dying := s.current.map fun l => (l, .cancelling) }
      else none
    | .stop =>
      if s.dying.isNone then
        some { s with current := none, dying := s.current.map fun l => (l, .cancelling) }
      else none
    | .destroy => s.dying.bind (s.destroy owned)
    | .thread a =>
      s.current.bind fun l => (l.step owned.toServer a).map fun l => { s with current := some l }
    | .dyingThread a =>
      s.dying.bind fun d =>
        (d.1.step owned.toServer a).map fun l => { s with dying := some (l, d.2) }

end Owner

/-- The owner of at most one server at a time. -/
def owner (owned : Owned Setup σ C) : Machine (Owner σ C) (OwnerAct Setup C) where
  init := ⟨none, none, false⟩
  step := Owner.step owned

/-! ## A thread -/

section

variable {server : Server σ C}

theorem Server.run_concat {s t : σ} {cs : List C} (h : server.run s cs = (t, false)) (c : C) :
    server.run s (cs ++ [c]) =
      if server.ends c then (server.finish t c, true) else (server.turn t c, false) := by
  induction cs generalizing s with
  | nil =>
    cases h
    rfl
  | cons d cs ih =>
    rw [Server.run] at h
    split at h
    · cases h
    · rename_i hd
      rw [List.cons_append, Server.run, if_neg hd]
      exact ih h

/-- The steps of a thread, with the branches resolved. -/
inductive LoopStep (server : Server σ C) (l : Loop σ C) : Act C → Loop σ C → Prop
  | start (h : l.spot = .top) :
      LoopStep server l .start
        { l with spot := if l.closed then .ready server.badSocket else .pending }
  | complete (c : C) (h : l.spot = .pending) :
      LoopStep server l (.complete c) { l with spot := .ready c }
  | poll (c : C) (h : l.spot = .ready c) : LoopStep server l .poll { l with spot := .done c }
  | finish (c : C) (h : l.spot = .done c) (he : server.ends c = true) :
      LoopStep server l .check
        { l with spot := .left, state := server.finish l.state c, seen := l.seen ++ [c] }
  | turn (c : C) (h : l.spot = .done c) (he : server.ends c = false) :
      LoopStep server l .check
        { l with spot := .top, state := server.turn l.state c, seen := l.seen ++ [c] }

theorem loopStep_cases {l l' : Loop σ C} {a : Act C} (h : l.step server a = some l') :
    LoopStep server l a l' := by
  cases a with
  | start =>
    simp only [Loop.step] at h
    split at h <;> cases h
    exact .start ‹_›
  | complete c =>
    simp only [Loop.step] at h
    split at h <;> cases h
    exact .complete c ‹_›
  | poll =>
    simp only [Loop.step] at h
    split at h <;> cases h
    exact .poll _ ‹_›
  | check =>
    simp only [Loop.step] at h
    split at h
    · rename_i c hc
      cases h
      split
      · exact .finish c hc ‹_›
      · exact .turn c hc (Bool.eq_false_iff.mpr ‹_›)
    · cases h

/-- A thread has run the loop on the results that it has seen. -/
def Faithful (server : Server σ C) (start : σ) (l : Loop σ C) : Prop :=
  server.run start l.seen = (l.state, l.spot.isLeft)

namespace Faithful

variable {start : σ} {l l' : Loop σ C}

theorem new (s : σ) (started : Bool) : Faithful server s (.new s started) := by
  cases started <;> rfl

theorem step (h : Faithful server start l) {a : Act C} (ha : l.step server a = some l') :
    Faithful server start l' := by
  unfold Faithful at h ⊢
  cases loopStep_cases ha with
  | start hs =>
    rw [hs] at h
    rw [h]
    cases l.closed <;> rfl
  | complete c hs =>
    rw [hs] at h
    exact h
  | poll c hs =>
    rw [hs] at h
    exact h
  | finish c hs he =>
    rw [hs] at h
    rw [Server.run_concat h, if_pos he]
    rfl
  | turn c hs he =>
    rw [hs] at h
    rw [Server.run_concat h, he]
    rfl

theorem cancel (h : Faithful server start l) : Faithful server start (l.cancel server) := by
  unfold Faithful at h ⊢
  unfold Loop.cancel
  split
  · rename_i hs
    rw [hs] at h
    exact h
  · exact h

theorem close (h : Faithful server start l) : Faithful server start (l.close server) := h.cancel

end Faithful

/-! ## Behind the close -/

/-- The socket is closed, and no operation is outstanding. -/
structure Closed (l : Loop σ C) : Prop where
  closed : l.closed = true
  spot_ne : l.spot ≠ .pending

theorem closed_close (l : Loop σ C) : Closed (l.close server) := by
  refine ⟨rfl, ?_⟩
  change (l.cancel server).spot ≠ .pending
  unfold Loop.cancel
  split
  · exact nofun
  · assumption

/-- The steps of a thread until it leaves. -/
def toGo (server : Server σ C) : Spot C → Nat
  | .ready c => if server.ends c then 2 else 5
  | .done c => if server.ends c then 1 else 4
  | .top => 3
  | _ => 0

/-- The results that it still looks at. -/
def toSee (server : Server σ C) : Spot C → Nat
  | .ready c => if server.ends c then 1 else 2
  | .done c => if server.ends c then 1 else 2
  | .top => 1
  | _ => 0

theorem toGo_le (p : Spot C) : toGo server p ≤ 5 := by
  unfold toGo
  split
  · split <;> omega
  · split <;> omega
  · omega
  · omega

theorem toSee_le (p : Spot C) : toSee server p ≤ 2 := by
  unfold toSee
  split
  · split <;> omega
  · split <;> omega
  · omega
  · omega

/-- One step of a thread whose socket is closed. -/
theorem Closed.step {l l' : Loop σ C} (h : Closed l) {a : Act C}
    (ha : l.step server a = some l') :
    Closed l' ∧ toGo server l'.spot + 1 ≤ toGo server l.spot ∧
      l'.seen.length + toSee server l'.spot ≤ l.seen.length + toSee server l.spot := by
  cases loopStep_cases ha with
  | start hs =>
    rw [hs, h.closed, if_pos rfl]
    refine ⟨⟨rfl, nofun⟩, ?_, ?_⟩
    · simp [toGo, server.ends_badSocket]
    · simp [toSee, server.ends_badSocket]
  | complete c hs => exact absurd hs h.spot_ne
  | poll c hs =>
    rw [hs]
    refine ⟨⟨h.closed, nofun⟩, ?_, Nat.le_refl _⟩
    simp only [toGo]
    split <;> omega
  | finish c hs he =>
    rw [hs]
    refine ⟨⟨h.closed, nofun⟩, ?_, ?_⟩
    · simp [toGo, he]
    · simp [toSee, he]
  | turn c hs he =>
    rw [hs]
    refine ⟨⟨h.closed, nofun⟩, ?_, ?_⟩
    · simp [toGo, he]
    · simp [toSee, he]

/-- A thread whose socket is closed can go on by itself until it has left. -/
theorem Closed.moves {l : Loop σ C} (h : Closed l) :
    l.spot.joined = true ∨ ∃ a l', a.ofThread = true ∧ l.step server a = some l' := by
  cases hs : l.spot with
  | none => exact Or.inl rfl
  | left => exact Or.inl rfl
  | pending => exact absurd hs h.spot_ne
  | top => exact Or.inr ⟨.start, _, rfl, by simp only [Loop.step, hs]; rfl⟩
  | ready c => exact Or.inr ⟨.poll, _, rfl, by simp only [Loop.step, hs]; rfl⟩
  | done c => exact Or.inr ⟨.check, _, rfl, by simp only [Loop.step, hs]; rfl⟩

end

/-! ## The owner -/

variable {owned : Owned Setup σ C}

/-- The steps of the owner and its threads, with the branches resolved. -/
inductive OwnerStep (owned : Owned Setup σ C) (s : Owner σ C) :
    OwnerAct Setup C → Owner σ C → Prop
  | start (setup : Setup) (hd : s.dying = none) :
      OwnerStep owned s (.start setup) { s with
        current := some (.new (owned.new setup) (owned.started (owned.new setup)))
        dying := s.current.map fun l => (l, .cancelling) }
  | stop (hd : s.dying = none) :
      OwnerStep owned s .stop
        { s with current := none, dying := s.current.map fun l => (l, .cancelling) }
  | cancel (l : Loop σ C) (hd : s.dying = some (l, .cancelling))
      (h : owned.destructible l.state = true) :
      OwnerStep owned s .destroy { s with dying := some (l.cancel owned.toServer, .closing) }
  | terminate (l : Loop σ C) (hd : s.dying = some (l, .cancelling))
      (h : owned.destructible l.state = false) :
      OwnerStep owned s .destroy { s with terminated := true }
  | close (l : Loop σ C) (hd : s.dying = some (l, .closing)) :
      OwnerStep owned s .destroy { s with dying := some (l.close owned.toServer, .joining) }
  | join (l : Loop σ C) (hd : s.dying = some (l, .joining)) (h : l.spot.joined = true) :
      OwnerStep owned s .destroy { s with dying := none }
  | thread (a : Act C) (l l' : Loop σ C) (hc : s.current = some l)
      (h : l.step owned.toServer a = some l') :
      OwnerStep owned s (.thread a) { s with current := some l' }
  | dyingThread (a : Act C) (l l' : Loop σ C) (d : Destructor) (hd : s.dying = some (l, d))
      (h : l.step owned.toServer a = some l') :
      OwnerStep owned s (.dyingThread a) { s with dying := some (l', d) }

theorem ownerStep_cases {s s' : Owner σ C} {a : OwnerAct Setup C}
    (h : s.step owned a = some s') : s.terminated = false ∧ OwnerStep owned s a s' := by
  unfold Owner.step at h
  split at h
  · cases h
  · rename_i ht
    refine ⟨Bool.eq_false_iff.mpr ht, ?_⟩
    cases a with
    | start setup =>
      dsimp only at h
      split at h <;> cases h
      exact .start setup (Option.isNone_iff_eq_none.mp ‹_›)
    | stop =>
      dsimp only at h
      split at h <;> cases h
      exact .stop (Option.isNone_iff_eq_none.mp ‹_›)
    | destroy =>
      obtain ⟨⟨l, d⟩, hd, hs⟩ := Option.bind_eq_some_iff.mp h
      cases d with
      | cancelling =>
        simp only [Owner.destroy] at hs
        split at hs <;> cases hs
        · exact .cancel l hd ‹_›
        · exact .terminate l hd (Bool.eq_false_iff.mpr ‹_›)
      | closing =>
        cases hs
        exact .close l hd
      | joining =>
        simp only [Owner.destroy] at hs
        split at hs <;> cases hs
        exact .join l hd ‹_›
    | thread a =>
      obtain ⟨l, hc, hs⟩ := Option.bind_eq_some_iff.mp h
      obtain ⟨l', hl, rfl⟩ := Option.map_eq_some_iff.mp hs
      exact .thread a l l' hc hl
    | dyingThread a =>
      obtain ⟨⟨l, d⟩, hd, hs⟩ := Option.bind_eq_some_iff.mp h
      obtain ⟨l', hl, rfl⟩ := Option.map_eq_some_iff.mp hs
      exact .dyingThread a l l' d hd hl

/-- The server was constructed by its owner, and its thread has run the loop. -/
def Owned.Made (owned : Owned Setup σ C) (l : Loop σ C) : Prop :=
  ∃ setup, Faithful owned.toServer (owned.new setup) l

structure Sound (owned : Owned Setup σ C) (s : Owner σ C) : Prop where
  current : ∀ l, s.current = some l → owned.Made l
  dying : ∀ l d, s.dying = some (l, d) → owned.Made l
  joining : ∀ l, s.dying = some (l, .joining) → Closed l
  terminated : s.terminated = true →
    ∃ l, s.dying = some (l, .cancelling) ∧ owned.destructible l.state = false

namespace Sound

variable {s s' : Owner σ C}

/-- The owner gives up its server and has another one, or none. -/
theorem replace (h : Sound owned s) (ht : s.terminated = false) {current : Option (Loop σ C)}
    (hc : ∀ l, current = some l → owned.Made l) :
    Sound owned { s with
      current := current
      dying := s.current.map fun l => (l, .cancelling) } := by
  refine ⟨hc, fun l d hd => ?_, fun l hd => ?_, fun ht' => absurd (ht.symm.trans ht') (by simp)⟩
  · obtain ⟨l', hl', heq⟩ := Option.map_eq_some_iff.mp hd
    cases heq
    exact h.current l hl'
  · obtain ⟨l', hl', heq⟩ := Option.map_eq_some_iff.mp hd
    cases heq

/-- The server that is destroyed moves on. -/
theorem advance (h : Sound owned s) (ht : s.terminated = false) {l : Loop σ C} {d : Destructor}
    (hl : owned.Made l) (hj : d = .joining → Closed l) :
    Sound owned { s with dying := some (l, d) } := by
  refine ⟨h.current, fun l' d' hd => ?_, fun l' hd => ?_,
    fun ht' => absurd (ht.symm.trans ht') (by simp)⟩
  · cases hd
    exact hl
  · cases hd
    exact hj rfl

theorem step (h : Sound owned s) {a : OwnerAct Setup C} (ha : s.step owned a = some s') :
    Sound owned s' := by
  obtain ⟨ht, hstep⟩ := ownerStep_cases ha
  cases hstep with
  | start setup hd =>
    refine h.replace ht fun l hl => ?_
    cases hl
    exact ⟨setup, .new _ _⟩
  | stop hd => exact h.replace ht nofun
  | cancel l hd hdes =>
    obtain ⟨setup, hf⟩ := h.dying l _ hd
    exact h.advance ht ⟨setup, hf.cancel⟩ nofun
  | terminate l hd hdes => exact ⟨h.current, h.dying, h.joining, fun _ => ⟨l, hd, hdes⟩⟩
  | close l hd =>
    obtain ⟨setup, hf⟩ := h.dying l _ hd
    exact h.advance ht ⟨setup, hf.close⟩ fun _ => closed_close l
  | join l hd hj =>
    exact ⟨h.current, nofun, nofun, fun ht' => absurd (ht.symm.trans ht') (by simp)⟩
  | thread a l l' hc hl =>
    refine ⟨fun k hk => ?_, h.dying, h.joining, h.terminated⟩
    cases hk
    obtain ⟨setup, hf⟩ := h.current l hc
    exact ⟨setup, hf.step hl⟩
  | dyingThread a l l' d hd hl =>
    obtain ⟨setup, hf⟩ := h.dying l d hd
    refine h.advance ht ⟨setup, hf.step hl⟩ fun hj => ?_
    subst hj
    exact ((h.joining l hd).step hl).1

end Sound

theorem sound_of_reachable {s : Owner σ C} (hs : (owner owned).Reachable s) : Sound owned s :=
  hs.invariant ⟨nofun, nofun, nofun, nofun⟩ fun _ _ _ h ha => h.step ha

/-! ## The join -/

/-- The owner constructs no server and gives none up. -/
def OwnerAct.keeps : OwnerAct Setup C → Bool
  | .start _ => false
  | .stop => false
  | _ => true

/-- The runs while the owner is in one destructor, and behind it. -/
def inDestructor (owned : Owned Setup σ C) : Machine (Owner σ C) (OwnerAct Setup C) :=
  (owner owned).guarded fun _ a _ => a.keeps

/-- The destructor is at its join, or behind it. -/
def Joining (owned : Owned Setup σ C) (l : Loop σ C) (s : Owner σ C) : Prop :=
  Sound owned s ∧ ∀ l' d, s.dying = some (l', d) → d = .joining ∧
    l'.seen.length + toSee owned.toServer l'.spot ≤ l.seen.length + 2

/-- The steps that the thread of the destroyed server still takes. -/
def dyingToGo (owned : Owned Setup σ C) (s : Owner σ C) : Nat :=
  s.dying.elim 0 fun d => toGo owned.toServer d.1.spot

theorem Joining.step {l : Loop σ C} {s s' : Owner σ C} (h : Joining owned l s)
    {a : OwnerAct Setup C} (hk : a.keeps = true) (ha : s.step owned a = some s') :
    Joining owned l s' ∧
      (dyingToGo owned s' + if a.isDyingThread = true then 1 else 0) ≤ dyingToGo owned s := by
  have hsound := h.1.step ha
  cases (ownerStep_cases ha).2 with
  | start setup hd => cases hk
  | stop hd => cases hk
  | cancel k hd hdes => cases (h.2 k _ hd).1
  | terminate k hd hdes => cases (h.2 k _ hd).1
  | close k hd => cases (h.2 k _ hd).1
  | join k hd hj => exact ⟨⟨hsound, nofun⟩, Nat.zero_le _⟩
  | thread b k k' hc hl => exact ⟨⟨hsound, h.2⟩, Nat.le_refl _⟩
  | dyingThread b k k' d hd hl =>
    obtain ⟨rfl, hsee⟩ := h.2 k d hd
    obtain ⟨-, hgo, hseen⟩ := (h.1.joining k hd).step hl
    refine ⟨⟨hsound, fun k'' d'' hd'' => ?_⟩, ?_⟩
    · cases hd''
      exact ⟨rfl, Nat.le_trans hseen hsee⟩
    · rw [dyingToGo, dyingToGo, hd]
      exact hgo

/-- **The join returns.** Once the socket is closed, the thread takes at most five steps
and looks at most at two results, whatever else runs; while it has not left, it has a
step of its own to take, and then the join goes through. -/
theorem join_returns {s s' : Owner σ C} (hs : (owner owned).Reachable s) {l : Loop σ C}
    (hd : s.dying = some (l, .joining)) {as : List (OwnerAct Setup C)}
    (h : (inDestructor owned).run s as = some s') :
    as.countP OwnerAct.isDyingThread ≤ 5 ∧
      ∀ l' d, s'.dying = some (l', d) → l'.seen.length ≤ l.seen.length + 2 ∧
        (l'.spot.joined = true ∨
          ∃ a l'', a.ofThread = true ∧ l'.step owned.toServer a = some l'') := by
  have hstep : ∀ u a v, Joining owned l u → (inDestructor owned).step u a = some v →
      Joining owned l v ∧
        (dyingToGo owned v + if a.isDyingThread = true then 1 else 0) ≤ dyingToGo owned u := by
    intro u a v hu hv
    obtain ⟨hv, hk⟩ := Machine.guarded_step.mp hv
    exact hu.step hk hv
  have hstart : Joining owned l s := by
    refine ⟨sound_of_reachable hs, fun l' d hd' => ?_⟩
    rw [hd] at hd'
    cases hd'
    exact ⟨rfl, Nat.add_le_add_left (toSee_le _) _⟩
  have hcount := Machine.run_countP_le hstep hstart h
  have hend : Joining owned l s' :=
    Machine.run_invariant (fun u a v hu hv => (hstep u a v hu hv).1) hstart h
  refine ⟨?_, fun l' d hd' => ?_⟩
  · have hle : dyingToGo owned s ≤ 5 := by
      rw [dyingToGo, hd]
      exact toGo_le _
    omega
  · obtain ⟨rfl, hsee⟩ := hend.2 l' d hd'
    exact ⟨by omega, (hend.1.joining l' hd').moves⟩

end PollLoops
