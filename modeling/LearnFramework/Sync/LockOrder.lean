import LearnFramework.Lib.OrderedMap

/-!
# The lock-order detector: data and functions

`LockData` and the functions of `sync.cpp` under `DEBUG_LOCKORDER`. An address
(`void*`) is a natural number, 0 the null pointer, in the order in which a
`std::map` compares its keys. The back of a `LockStack` is the end of the list.
`assert(false)` ends the program: the functions that reach it return an error that
keeps the arguments of `potential_deadlock_detected`.
-/

namespace LearnFramework.Sync

open Std OrderedMaps

abbrev Ptr := Nat

structure CLockLocation where
  mutexName : String
  sourceFile : String
  sourceLine : Int
  fTry : Bool
  deriving DecidableEq, Repr

/-- `ToString`; `itostr` writes an integer in decimal. -/
def CLockLocation.text (i : CLockLocation) : String :=
  i.mutexName ++ "  " ++ i.sourceFile ++ ":" ++ toString i.sourceLine ++
    (if i.fTry then " (TRY)" else "")

abbrev LockStack := List (Ptr × CLockLocation)

abbrev LockOrders := TreeMap (Ptr × Ptr) LockStack lexOrd.compare

abbrev InvLockOrders := TreeSet (Ptr × Ptr) lexOrd.compare

structure LockData where
  available : Bool
  lockorders : LockOrders
  invlockorders : InvLockOrders

namespace LockData

def new : LockData := ⟨true, ∅, ∅⟩

/-- The arguments of `potential_deadlock_detected`. -/
structure Mismatch where
  mismatch : Ptr × Ptr
  s1 : LockStack
  s2 : LockStack
  deriving DecidableEq, Repr

/-- The loop of `push_lock` over the stack, from an entry on. -/
def recordOrders (c : Ptr) (lockstack : LockStack) :
    LockStack → LockData → Except Mismatch LockData
  | [], lockdata => .ok lockdata
  | i :: rest, lockdata =>
    if i.1 = c then .ok lockdata
    else if (i.1, c) ∈ lockdata.lockorders then recordOrders c lockstack rest lockdata
    else
      let lockdata' : LockData := { lockdata with
        lockorders := lockdata.lockorders.insert (i.1, c) lockstack
        invlockorders := lockdata.invlockorders.insert (c, i.1) }
      match lockdata'.lockorders[(c, i.1)]? with
      | some s1 => .error ⟨(i.1, c), s1, lockstack⟩
      | none => recordOrders c lockstack rest lockdata'

/-- `push_lock`. A thread that has no stack yet gets an empty one. -/
def pushLock (c : Ptr) (locklocation : CLockLocation) (lockstack : Option LockStack)
    (lockdata : LockData) : Except Mismatch (LockStack × LockData) :=
  let lockstack := lockstack.getD [] ++ [(c, locklocation)]
  (recordOrders c lockstack lockstack lockdata).map fun lockdata => (lockstack, lockdata)

/-- `EnterCritical`. -/
def enterCritical (pszName pszFile : String) (nLine : Int) (cs : Ptr) (fTry : Bool)
    (lockstack : Option LockStack) (lockdata : LockData) :
    Except Mismatch (LockStack × LockData) :=
  pushLock cs ⟨pszName, pszFile, nLine, fTry⟩ lockstack lockdata

/-- `lower_bound`: the keys from the iterator on. -/
def lowerBound (item : Ptr × Ptr) (keys : List (Ptr × Ptr)) : List (Ptr × Ptr) :=
  keys.dropWhile fun it => (lexOrd.compare it item).isLT

/-- The loop of `DeleteLock` over `lockorders`, from the iterator on. -/
def deleteOrders (cs : Ptr) : List (Ptr × Ptr) → LockData → LockData
  | [], lockdata => lockdata
  | it :: rest, lockdata =>
    if it.1 = cs then
      deleteOrders cs rest { lockdata with
        invlockorders := lockdata.invlockorders.erase (it.2, it.1)
        lockorders := lockdata.lockorders.erase it }
    else lockdata

/-- The loop of `DeleteLock` over `invlockorders`, from the iterator on. -/
def deleteInvOrders (cs : Ptr) : List (Ptr × Ptr) → LockData → LockData
  | [], lockdata => lockdata
  | invit :: rest, lockdata =>
    if invit.1 = cs then
      deleteInvOrders cs rest { lockdata with
        lockorders := lockdata.lockorders.erase (invit.2, invit.1)
        invlockorders := lockdata.invlockorders.erase invit }
    else lockdata

/-- `DeleteLock`. -/
def deleteLock (cs : Ptr) (lockdata : LockData) : LockData :=
  if lockdata.available then
    let item := (cs, 0)
    let lockdata := deleteOrders cs (lowerBound item lockdata.lockorders.keys) lockdata
    deleteInvOrders cs (lowerBound item lockdata.invlockorders.toList) lockdata
  else lockdata

end LockData

/-- `pop_lock`, and so `LeaveCritical`; `none` when there is no stack or it is empty. -/
def popLock : Option LockStack → Option LockStack
  | some (i :: rest) => some (i :: rest).dropLast
  | _ => none

/-- `LocksHeld`; `none` reads through the null pointer. -/
def locksHeld (lockstack : Option LockStack) : Option String :=
  lockstack.map fun stack => stack.foldl (fun result i => result ++ (i.2.text ++ "\n")) ""

/-- `AssertLockHeldInternal`: `none` reads through the null pointer, and an error is
the text on `stderr` before `abort`. -/
def assertLockHeldInternal (pszName pszFile : String) (nLine : Int) (cs : Ptr)
    (lockstack : Option LockStack) : Option (Except String Unit) :=
  lockstack.bind fun stack =>
    if stack.any fun i => i.1 = cs then some (.ok ())
    else (locksHeld lockstack).map fun held => .error
      ("Assertion failed: lock " ++ pszName ++ " not held in " ++ pszFile ++ ":" ++
        toString nLine ++ "; locks held:\n" ++ held)

/-! ## The locks in front of a lock -/

/-- The locks of a stack, the first one taken first. -/
def locks (lockstack : LockStack) : List Ptr := lockstack.map Prod.fst

@[simp] theorem locks_nil : locks [] = [] := rfl

@[simp] theorem locks_append (s s' : LockStack) : locks (s ++ s') = locks s ++ locks s' :=
  List.map_append

@[simp] theorem locks_cons (i : Ptr × CLockLocation) (s : LockStack) :
    locks (i :: s) = i.1 :: locks s := rfl

/-- The locks in front of the first occurrence of `c`. -/
def front (c : Ptr) (l : List Ptr) : List Ptr := l.takeWhile fun a => a ≠ c

@[simp] theorem front_nil (c : Ptr) : front c [] = [] := rfl

@[simp] theorem front_cons_self (c : Ptr) (l : List Ptr) : front c (c :: l) = [] :=
  List.takeWhile_cons_of_neg (by simp)

theorem front_cons_of_ne {a c : Ptr} (h : a ≠ c) (l : List Ptr) :
    front c (a :: l) = a :: front c l :=
  List.takeWhile_cons_of_pos (by simpa using h)

theorem ne_of_mem_front {a c : Ptr} {l : List Ptr} (h : a ∈ front c l) : a ≠ c := by
  simpa using List.mem_takeWhile_imp h

theorem mem_of_mem_front {a c : Ptr} {l : List Ptr} (h : a ∈ front c l) : a ∈ l :=
  List.takeWhile_subset _ h

theorem front_eq_self {c : Ptr} {l : List Ptr} (h : c ∉ l) : front c l = l :=
  List.takeWhile_eq_self_iff.mpr fun a ha => by
    rw [decide_eq_true_iff]
    rintro rfl
    exact h ha

theorem front_concat_self {c : Ptr} (l : List Ptr) : front c (l ++ [c]) = front c l := by
  rw [front, front, List.takeWhile_append]
  split
  · rename_i h
    rw [List.takeWhile_cons_of_neg (by simp), List.append_nil]
    exact ((List.takeWhile_prefix _).eq_of_length h).symm
  · rfl

theorem front_append_of_mem {c : Ptr} {l : List Ptr} (h : c ∈ l) (l' : List Ptr) :
    front c (l ++ l') = front c l := by
  rw [front, front, List.takeWhile_append, if_neg]
  intro hlen
  have hself := (List.takeWhile_prefix _).eq_of_length hlen
  have hne := List.takeWhile_eq_self_iff.mp hself c h
  simp at hne

/-- Both locks are on the stack, and `a` is in front of the first occurrence of `b`. -/
def InOrder (a b : Ptr) (lockstack : LockStack) : Prop :=
  a ∈ front b (locks lockstack) ∧ b ∈ locks lockstack

/-! ## What each function does -/

namespace LockData

theorem getElem?_insert (m : LockOrders) (p q : Ptr × Ptr) (s : LockStack) :
    (m.insert p s)[q]? = if p = q then some s else m[q]? := by
  rw [TreeMap.getElem?_insert]
  simp only [LawfulEqCmp.compare_eq_iff_eq]

theorem mem_insert (m : LockOrders) (p q : Ptr × Ptr) (s : LockStack) :
    q ∈ m.insert p s ↔ p = q ∨ q ∈ m := by
  rw [TreeMap.mem_insert, LawfulEqCmp.compare_eq_iff_eq]

theorem mem_of_getElem? {m : LockOrders} {p : Ptr × Ptr} {s : LockStack} (h : m[p]? = some s) :
    p ∈ m := by
  rw [TreeMap.mem_iff_isSome_getElem?, h]
  rfl

/-- A push that goes through: each lock in front of `c` that had no pair with `c`
gets one, with the stack of this push. -/
structure Recorded (c : Ptr) (lockstack : LockStack) (before : List Ptr)
    (d d' : LockData) : Prop where
  available : d'.available = d.available
  orders : ∀ p, d'.lockorders[p]? =
    if p ∉ d.lockorders ∧ p.2 = c ∧ p.1 ∈ before then some lockstack else d.lockorders[p]?
  inv : ∀ p, p ∈ d'.invlockorders ↔
    p ∈ d.invlockorders ∨ (p.2, p.1) ∉ d.lockorders ∧ p.1 = c ∧ p.2 ∈ before
  fresh : ∀ a ∈ before, (a, c) ∉ d.lockorders → (c, a) ∉ d.lockorders

/-- A push that is refused: the mismatch, and the stacks of both orders. -/
def Refused (c : Ptr) (lockstack : LockStack) (before : List Ptr) (d : LockData)
    (e : Mismatch) : Prop :=
  ∃ a ∈ before, (a, c) ∉ d.lockorders ∧ d.lockorders[(c, a)]? = some e.s1 ∧
    e.mismatch = (a, c) ∧ e.s2 = lockstack

theorem Recorded.refl (c : Ptr) (lockstack : LockStack) (d : LockData) :
    Recorded c lockstack [] d d where
  available := rfl
  orders p := by simp
  inv p := by simp
  fresh a ha := by cases ha

theorem Recorded.old {c a : Ptr} {lockstack : LockStack} {before : List Ptr} {d d' : LockData}
    (h : Recorded c lockstack before d d') (ha : (a, c) ∈ d.lockorders) :
    Recorded c lockstack (a :: before) d d' := by
  have hiff : ∀ p : Ptr × Ptr, p ∉ d.lockorders ∧ p.2 = c ∧ p.1 ∈ a :: before ↔
      p ∉ d.lockorders ∧ p.2 = c ∧ p.1 ∈ before := by
    rintro ⟨b, e⟩
    rw [List.mem_cons]
    constructor
    · rintro ⟨hp, rfl, rfl | hb⟩
      · exact absurd ha hp
      · exact ⟨hp, rfl, hb⟩
    · rintro ⟨hp, he, hb⟩
      exact ⟨hp, he, Or.inr hb⟩
  refine ⟨h.available, ?_, ?_, ?_⟩
  · intro p
    rw [h.orders p]
    exact if_congr (hiff p).symm rfl rfl
  · intro p
    rw [h.inv p]
    exact or_congr_right (hiff p.swap).symm
  · intro b hb hn
    rcases List.mem_cons.mp hb with rfl | hb
    · exact absurd ha hn
    · exact h.fresh b hb hn

theorem Recorded.new {c a : Ptr} {lockstack : LockStack} {before : List Ptr} {d d' : LockData}
    (h : Recorded c lockstack before { d with
      lockorders := d.lockorders.insert (a, c) lockstack
      invlockorders := d.invlockorders.insert (c, a) } d')
    (hne : a ≠ c) (hn : (a, c) ∉ d.lockorders) (hc : (c, a) ∉ d.lockorders) :
    Recorded c lockstack (a :: before) d d' := by
  refine ⟨h.available, ?_, ?_, ?_⟩
  · rintro ⟨b, e⟩
    rw [h.orders]
    simp only [mem_insert, getElem?_insert, Prod.mk.injEq, List.mem_cons, not_or]
    by_cases hb : a = b ∧ c = e
    · obtain ⟨rfl, rfl⟩ := hb
      simp [hn]
    · by_cases he : e = c
      · have hba : b ≠ a := fun h => hb ⟨h.symm, he.symm⟩
        simp [he, hba, Ne.symm hba]
      · simp [he, Ne.symm he]
  · rintro ⟨e, b⟩
    rw [h.inv]
    simp only [mem_insert, TreeSet.mem_insert, LawfulEqCmp.compare_eq_iff_eq, Prod.mk.injEq,
      List.mem_cons, not_or]
    by_cases hb : c = e ∧ a = b
    · obtain ⟨rfl, rfl⟩ := hb
      simp [hn]
    · by_cases he : e = c
      · have hba : b ≠ a := fun h => hb ⟨he.symm, h.symm⟩
        simp [he, hba, Ne.symm hba]
      · simp [he, Ne.symm he]
  · intro b hb hbn
    rcases List.mem_cons.mp hb with rfl | hb
    · exact hc
    · intro hcb
      have hmem : (b, c) ∉ d.lockorders.insert (a, c) lockstack := by
        rw [mem_insert, Prod.mk.injEq, not_or]
        refine ⟨?_, hbn⟩
        rintro ⟨rfl, -⟩
        exact hc hcb
      exact h.fresh b hb hmem (by rw [mem_insert]; exact Or.inr hcb)

theorem recordOrders_cases (c : Ptr) (lockstack l : LockStack) (d : LockData) :
    (∃ d', recordOrders c lockstack l d = .ok d' ∧
      Recorded c lockstack (front c (locks l)) d d') ∨
    ∃ e, recordOrders c lockstack l d = .error e ∧
      Refused c lockstack (front c (locks l)) d e := by
  induction l generalizing d with
  | nil => exact Or.inl ⟨d, rfl, Recorded.refl c lockstack d⟩
  | cons i rest ih =>
    rw [recordOrders, locks_cons]
    by_cases hi : i.1 = c
    · rw [if_pos hi, hi, front_cons_self]
      exact Or.inl ⟨d, rfl, Recorded.refl c lockstack d⟩
    · rw [if_neg hi, front_cons_of_ne hi]
      by_cases hmem : (i.1, c) ∈ d.lockorders
      · rw [if_pos hmem]
        rcases ih d with ⟨d', h, hrest⟩ | ⟨e, h, a, ha, hrest⟩
        · exact Or.inl ⟨d', h, hrest.old hmem⟩
        · exact Or.inr ⟨e, h, a, List.mem_cons_of_mem _ ha, hrest⟩
      · rw [if_neg hmem]
        have hlook : (d.lockorders.insert (i.1, c) lockstack)[(c, i.1)]? =
            d.lockorders[(c, i.1)]? := by
          rw [getElem?_insert, if_neg]
          intro he
          exact hi (Prod.mk.inj he).1
        simp only [hlook]
        cases hrev : d.lockorders[(c, i.1)]? with
        | some s1 => exact Or.inr ⟨_, rfl, i.1, List.mem_cons_self, hmem, hrev, rfl, rfl⟩
        | none =>
          have hrevn : (c, i.1) ∉ d.lockorders := by
            rw [TreeMap.mem_iff_isSome_getElem?, hrev]
            exact Bool.false_ne_true
          rcases ih { d with
              lockorders := d.lockorders.insert (i.1, c) lockstack
              invlockorders := d.invlockorders.insert (c, i.1) } with
            ⟨d', h, hrest⟩ | ⟨e, h, a, ha, hn, hs, he⟩
          · exact Or.inl ⟨d', h, hrest.new hi hmem hrevn⟩
          · refine Or.inr ⟨e, h, a, List.mem_cons_of_mem _ ha, fun h => hn ?_, ?_, he⟩
            · exact (mem_insert ..).mpr (Or.inr h)
            · rw [← hs, getElem?_insert, if_neg]
              intro he
              exact hi (Prod.mk.inj he).1

/-- The stack after a push. -/
def pushed (c : Ptr) (locklocation : CLockLocation) (lockstack : Option LockStack) :
    LockStack := lockstack.getD [] ++ [(c, locklocation)]

/-- The locks that a push of `c` finds in front of it. -/
def ahead (c : Ptr) (lockstack : Option LockStack) : List Ptr :=
  front c (locks (lockstack.getD []))

theorem front_pushed (c : Ptr) (l : CLockLocation) (lockstack : Option LockStack) :
    front c (locks (pushed c l lockstack)) = ahead c lockstack := by
  rw [pushed, locks_append, locks_cons, locks_nil, front_concat_self, ahead]

/-- The stack of a push shows the order that it records. -/
theorem inOrder_pushed {a c : Ptr} {lockstack : Option LockStack} (ha : a ∈ ahead c lockstack)
    (l : CLockLocation) : InOrder a c (pushed c l lockstack) := by
  refine ⟨?_, ?_⟩
  · rw [front_pushed]
    exact ha
  · rw [pushed, locks_append]
    exact List.mem_append_right _ List.mem_cons_self

/-- **One push.** It records every new pair, or it is refused. -/
theorem pushLock_cases (c : Ptr) (locklocation : CLockLocation) (lockstack : Option LockStack)
    (d : LockData) :
    (∃ d', pushLock c locklocation lockstack d = .ok (pushed c locklocation lockstack, d') ∧
      Recorded c (pushed c locklocation lockstack) (ahead c lockstack) d d') ∨
    ∃ e, pushLock c locklocation lockstack d = .error e ∧
      Refused c (pushed c locklocation lockstack) (ahead c lockstack) d e := by
  have hcases := recordOrders_cases c (pushed c locklocation lockstack)
    (pushed c locklocation lockstack) d
  rw [front_pushed] at hcases
  rcases hcases with ⟨d', h, hr⟩ | ⟨e, h, hr⟩
  · exact Or.inl ⟨d', congrArg (Except.map _) h, hr⟩
  · exact Or.inr ⟨e, congrArg (Except.map _) h, hr⟩

end LockData

end LearnFramework.Sync
