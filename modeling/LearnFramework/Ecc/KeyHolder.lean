import LearnFramework.Ecc.ThirdParty

/-!
# What `OpenEcc` is to its callers

A key holder has a scalar and a point, and says what the calls of the class may deliver.
The class refines it: what is said in a conversation with an instance, over any calls in
any order, is what a key holder may say; and where nothing is signed, the other way
around. A key holder does not ask that its point is the one of its scalar.
-/

namespace LearnFramework.Ecc

open Machines

variable {Key Group P : Type*} [AddCommGroup P] {lib : Libcrypto Key Group P} {curve : Curve P}

/-- A call of a method, with what the library draws for it. -/
inductive Method (curve : Curve P) where
  | initEccCurves (draw : curve.Scalar)
  | importPrivKey (strPrivKey : List UInt8) (draw : curve.Scalar)
  | dumpPrivKey
  | signMessage (message : List UInt8) (nonce : Nat)
  | verifyMessage (message signature pubKey : List UInt8)
  | getPubKey
  | calcECDHKey (pubKey : List UInt8) (shareKey : { b : List UInt8 // b.length = 32 })

/-- What a call delivers. -/
inductive Answer where
  | done
  | text (s : List UInt8)
  | verdict (b : Bool)
  deriving DecidableEq

def Method.signs : Method curve → Bool
  | .signMessage _ _ => true
  | _ => false

/-- The instance after a call, and what it delivers. -/
def call (lib : Libcrypto Key Group P) :
    Option (OpenEcc Key Group) → Method curve → Option (Option (OpenEcc Key Group) × Answer)
  | _, .initEccCurves d => (OpenEcc.initEccCurves lib d.1).map fun s => (some s, .done)
  | none, _ => none
  | some s, .importPrivKey str d => (s.importPrivKey lib str d.1).map fun s => (some s, .done)
  | some s, .dumpPrivKey => (s.dumpPrivKey lib).map fun t => (some s, .text t)
  | some s, .signMessage m nonce => (s.signMessage lib m nonce).map fun t => (some s, .text t)
  | some s, .verifyMessage m sig pubKey =>
    some (some s, .verdict (s.verifyMessage lib m sig pubKey))
  | some s, .getPubKey => (s.getPubKey lib).map fun t => (some s, .text t)
  | some s, .calcECDHKey pubKey share => some (some s, .text (s.calcECDHKey lib pubKey share))

/-- Calls on one instance, with the answers that its callers get. -/
def conversation (lib : Libcrypto Key Group P) (curve : Curve P) :
    Machine (Option (OpenEcc Key Group)) (Method curve × Answer) where
  init := none
  step s e := ((call lib s e.1).filter fun r => r.2 = e.2).map Prod.fst

/-! ## The key holder -/

structure KeyHolder (P : Type*) where
  scalar : Nat
  point : P

/-- The text of a point. -/
def encode (lib : Libcrypto Key Group P) (point : P) : Option (List UInt8) :=
  lib.group.bind fun g => lib.ecPointPoint2hex g point

/-- The point that the text of a peer stands for. -/
def peer (lib : Libcrypto Key Group P) (pubKey : List UInt8) : Option P :=
  lib.group.map fun g => (lib.ecPointHex2point g (cStr pubKey) (lib.ecPointNew g)).2

open Classical in
/-- A buffer of 32 bytes with the key of a shared point in front. -/
noncomputable def derive (curve : Curve P) (shared : P) (buf : List UInt8) : List UInt8 :=
  if shared = 0 then buf else (curve.xBytes shared).take 32 ++ buf.drop curve.fieldBytes

namespace KeyHolder

/-- What a key holder may answer. A signature is one for the point of the scalar; without
a valid scalar nothing is said about it. -/
def Answers (lib : Libcrypto Key Group P) (h : KeyHolder P) : Method curve → Answer → Prop
  | .initEccCurves _, a => a = .done
  | .importPrivKey _ _, a => a = .done
  | .dumpPrivKey, a => a = .text (lib.bnBn2hex h.scalar)
  | .signMessage m _, a => ∃ sig, a = .text sig ∧ (1 ≤ h.scalar ∧ h.scalar < curve.order →
      ∀ point, ValidUnder lib point m sig ↔ point = h.scalar • curve.generator)
  | .verifyMessage m sig _, a => ∃ b, a = .verdict b ∧ (b = true ↔ ValidUnder lib h.point m sig)
  | .getPubKey, a => ∃ text, encode lib h.point = some text ∧ a = .text text
  | .calcECDHKey pubKey share, a =>
      ∃ point, peer lib pubKey = some point ∧ a = .text (derive curve (h.scalar • point) share.1)

end KeyHolder

/-- The scalar comes from the text of an import, the point from its draw. -/
def after (lib : Libcrypto Key Group P) (h : Option (KeyHolder P)) :
    Method curve → Option (KeyHolder P)
  | .initEccCurves d => some ⟨d.1, d.1 • curve.generator⟩
  | .importPrivKey str d => some ⟨(lib.bnHex2bn 0 (cStr str)).2, d.1 • curve.generator⟩
  | _ => h

/-- Before `initEccCurves` there is no holder, and no other call. -/
def Allows (lib : Libcrypto Key Group P) (h : Option (KeyHolder P)) (m : Method curve)
    (a : Answer) : Prop :=
  (∃ d, m = .initEccCurves d ∧ a = .done) ∨ ∃ k, h = some k ∧ k.Answers lib m a

open Classical in
noncomputable def keyHolder (lib : Libcrypto Key Group P) (curve : Curve P) :
    Machine (Option (KeyHolder P)) (Method curve × Answer) where
  init := none
  step h e := if Allows lib h e.1 e.2 then some (after lib h e.1) else none

theorem conversation_step {s t : Option (OpenEcc Key Group)} {e : Method curve × Answer} :
    (conversation lib curve).step s e = some t ↔ call lib s e.1 = some (t, e.2) := by
  simp only [conversation, Option.map_eq_some_iff, Option.filter_eq_some_iff, decide_eq_true_eq]
  constructor
  · rintro ⟨⟨t', a⟩, ⟨hcall, ha⟩, rfl⟩
    rw [hcall, ← ha]
  · intro hcall
    exact ⟨_, ⟨hcall, rfl⟩, rfl⟩

theorem keyHolder_step {h h' : Option (KeyHolder P)} {e : Method curve × Answer} :
    (keyHolder lib curve).step h e = some h' ↔ Allows lib h e.1 e.2 ∧ after lib h e.1 = h' := by
  simp [keyHolder]

/-! ## Refinement -/

/-- The instance holds the key. -/
structure Embodies (lib : Libcrypto Key Group P) (s : OpenEcc Key Group) (h : KeyHolder P) :
    Prop extends Grounded lib s where
  private_eq : lib.ecKeyGet0PrivateKey s.privKey = some h.scalar
  public_eq : lib.ecKeyGet0PublicKey s.privKey = some h.point

theorem KeyState.embodies {s : OpenEcc Key Group} {x e : Nat} (h : KeyState lib curve s x e) :
    Embodies lib s ⟨x, e • curve.generator⟩ :=
  ⟨⟨h.group_eq, h.curves_eq, h.key_group⟩, h.private_eq, h.public_eq⟩

theorem embodies_initEccCurves (hlib : lib.Documented curve) {s : OpenEcc Key Group}
    {d : curve.Scalar} (h : OpenEcc.initEccCurves lib d.1 = some s) :
    Embodies lib s ⟨d.1, d.1 • curve.generator⟩ := by
  have hstep : (openEcc lib curve).step none (.initEccCurves d) = some (some s) := by
    simp [openEcc, h]
  obtain ⟨s', hs', hkey⟩ := keyState_of_step (c := .initEccCurves d) hlib trivial (by simp) hstep
  cases hs'
  exact hkey.embodies

namespace Embodies

variable {s : OpenEcc Key Group} {h : KeyHolder P}

theorem importPrivKey (hlib : lib.Documented curve) (hstore : StoresAny lib)
    (hs : Embodies lib s h) (str : List UInt8) (d : curve.Scalar) :
    ∃ s', s.importPrivKey lib str d.1 = some s' ∧
      Embodies lib s' ⟨(lib.bnHex2bn 0 (cStr str)).2, d.1 • curve.generator⟩ := by
  obtain ⟨s', k, himport, hground, hkey, hk, hpub⟩ := hs.toGrounded.importPrivKey hlib str d
  refine ⟨s', himport, hground, ?_, hpub⟩
  rw [hkey]
  exact hstore k hk _

omit [AddCommGroup P] in
theorem dumpPrivKey_eq (hs : Embodies lib s h) :
    s.dumpPrivKey lib = some (lib.bnBn2hex h.scalar) := by
  rw [OpenEcc.dumpPrivKey, OpenEcc.privKeyToStr, hs.private_eq, Option.map_some]

omit [AddCommGroup P] in
theorem getPubKey_eq (hs : Embodies lib s h) : s.getPubKey lib = encode lib h.point := by
  rw [OpenEcc.getPubKey, hs.public_eq, encode, ← hs.group_eq, Option.bind_some, Option.bind_some]

theorem verifyMessage_iff (hlib : lib.Documented curve) (hs : Embodies lib s h)
    (message signature pubKey : List UInt8) :
    s.verifyMessage lib message signature pubKey = true ↔
      ValidUnder lib h.point message signature := by
  rw [OpenEcc.verifyMessage, beq_iff_eq]
  exact hlib.verify_iff _ _ hs.key_group hs.public_eq _ _ _ _

omit [AddCommGroup P] in
theorem peer_eq (hs : Embodies lib s h) (pubKey : List UInt8) :
    peer lib pubKey = some (s.strToPubKey lib (cStr pubKey)) := by
  rw [peer, ← hs.group_eq, Option.map_some, OpenEcc.strToPubKey]

theorem calcECDHKey_eq (hlib : lib.Documented curve) (hs : Embodies lib s h)
    (pubKey : List UInt8) (shareKey : { b : List UInt8 // b.length = 32 }) :
    s.calcECDHKey lib pubKey shareKey =
      derive curve (h.scalar • s.strToPubKey lib (cStr pubKey)) shareKey.1 := by
  rw [OpenEcc.calcECDHKey, derive]
  by_cases hinf : h.scalar • s.strToPubKey lib (cStr pubKey) = 0
  · have hkeeps := hlib.ecdh_fails _ hs.key_group _ hs.private_eq _ hinf shareKey.1
    rw [shareKey.2] at hkeeps
    rw [if_pos hinf]
    exact hkeeps
  · have hwrites := hlib.ecdh_writes _ hs.key_group _ hs.private_eq _ hinf shareKey.1
    rw [shareKey.2] at hwrites
    rw [if_neg hinf]
    exact hwrites

/-- A call on an instance is answered as its key holder may answer. -/
theorem call_spec (hlib : lib.Documented curve) (hstore : StoresAny lib) (hs : Embodies lib s h)
    {m : Method curve} {t : Option (OpenEcc Key Group)} {a : Answer}
    (hcall : call lib (some s) m = some (t, a)) :
    h.Answers lib m a ∧ Option.Rel (Embodies lib) t (after lib (some h) m) := by
  cases m with
  | initEccCurves d =>
    obtain ⟨s', hinit, heq⟩ := Option.map_eq_some_iff.mp hcall
    cases heq
    exact ⟨rfl, .some (embodies_initEccCurves hlib hinit)⟩
  | importPrivKey str d =>
    obtain ⟨s', himport, hs'⟩ := hs.importPrivKey hlib hstore str d
    simp only [call, himport, Option.map_some, Option.some.injEq, Prod.mk.injEq] at hcall
    obtain ⟨rfl, rfl⟩ := hcall
    exact ⟨rfl, .some hs'⟩
  | dumpPrivKey =>
    simp only [call, hs.dumpPrivKey_eq, Option.map_some, Option.some.injEq, Prod.mk.injEq] at hcall
    obtain ⟨rfl, rfl⟩ := hcall
    exact ⟨rfl, .some hs⟩
  | signMessage message nonce =>
    obtain ⟨sig, hsign, heq⟩ := Option.map_eq_some_iff.mp hcall
    cases heq
    refine ⟨⟨sig, rfl, fun hx point => ?_⟩, .some hs⟩
    exact hlib.sign_valid _ hs.key_group ⟨h.scalar, hx⟩ hs.private_eq _ _ _ _ hsign point
  | verifyMessage message signature pubKey =>
    cases hcall
    exact ⟨⟨_, rfl, hs.verifyMessage_iff hlib message signature pubKey⟩, .some hs⟩
  | getPubKey =>
    obtain ⟨text, htext, heq⟩ := Option.map_eq_some_iff.mp hcall
    cases heq
    exact ⟨⟨text, hs.getPubKey_eq.symm.trans htext, rfl⟩, .some hs⟩
  | calcECDHKey pubKey shareKey =>
    cases hcall
    refine ⟨⟨_, hs.peer_eq pubKey, ?_⟩, .some hs⟩
    rw [hs.calcECDHKey_eq hlib]

end Embodies

/-- A key holder has one answer to everything but a request for a signature. -/
theorem KeyHolder.Answers.unique {h : KeyHolder P} {m : Method curve} (hm : m.signs = false)
    {a a' : Answer} (ha : h.Answers lib m a) (ha' : h.Answers lib m a') : a = a' := by
  cases m with
  | initEccCurves d => exact ha.trans ha'.symm
  | importPrivKey str d => exact ha.trans ha'.symm
  | dumpPrivKey => exact ha.trans ha'.symm
  | signMessage message nonce => cases hm
  | verifyMessage message signature pubKey =>
    obtain ⟨b, rfl, hb⟩ := ha
    obtain ⟨b', rfl, hb'⟩ := ha'
    rw [Bool.eq_iff_iff.mpr (hb.trans hb'.symm)]
  | getPubKey =>
    obtain ⟨text, htext, rfl⟩ := ha
    obtain ⟨text', htext', rfl⟩ := ha'
    rw [Option.some.inj (htext.symm.trans htext')]
  | calcECDHKey pubKey shareKey =>
    obtain ⟨point, hpoint, rfl⟩ := ha
    obtain ⟨point', hpoint', rfl⟩ := ha'
    rw [Option.some.inj (hpoint.symm.trans hpoint')]

theorem Allows.unique {h : Option (KeyHolder P)} {m : Method curve} (hm : m.signs = false)
    {a a' : Answer} (ha : Allows lib h m a) (ha' : Allows lib h m a') : a = a' := by
  rcases ha with ⟨d, rfl, rfl⟩ | ⟨k, rfl, hk⟩
  · rcases ha' with ⟨d', -, rfl⟩ | ⟨k', -, hk'⟩
    · rfl
    · exact hk'.symm
  · rcases ha' with ⟨d', rfl, rfl⟩ | ⟨k', hk', hanswers⟩
    · exact hk
    · cases hk'
      exact hk.unique hm hanswers

/-- A call is answered as it may be, with or without an instance. -/
theorem allows_of_call (hlib : lib.Documented curve) (hstore : StoresAny lib)
    {s t : Option (OpenEcc Key Group)} {h : Option (KeyHolder P)} {m : Method curve} {a : Answer}
    (hs : Option.Rel (Embodies lib) s h) (hcall : call lib s m = some (t, a)) :
    Allows lib h m a ∧ Option.Rel (Embodies lib) t (after lib h m) := by
  cases hs with
  | none =>
    cases m with
    | initEccCurves d =>
      obtain ⟨s', hinit, heq⟩ := Option.map_eq_some_iff.mp hcall
      cases heq
      exact ⟨.inl ⟨d, rfl, rfl⟩, .some (embodies_initEccCurves hlib hinit)⟩
    | _ => cases hcall
  | some hs =>
    obtain ⟨hanswers, ht⟩ := hs.call_spec hlib hstore hcall
    exact ⟨.inr ⟨_, rfl, hanswers⟩, ht⟩

theorem conversation_realizes (hlib : lib.Documented curve) (hstore : StoresAny lib) :
    Machine.Realizes (conversation lib curve) (keyHolder lib curve) some
      (Option.Rel (Embodies lib)) where
  init := .none
  step s e t h hs ht := by
    obtain ⟨hallows, ht'⟩ := allows_of_call hlib hstore hs (conversation_step.mp ht)
    exact ⟨_, Machine.run_cons_some.mpr ⟨_, keyHolder_step.mpr ⟨hallows, rfl⟩, rfl⟩, ht'⟩

/-- The text `5` is imported with the draw 2: what is signed then is not accepted. -/
def fiveImported : List (Method (smallCurve 21) × Answer) :=
  [(.initEccCurves ⟨3, by decide⟩, .done), (.importPrivKey [53] ⟨2, by decide⟩, .done),
    (.dumpPrivKey, .text [53]), (.getPubKey, .text [50]), (.signMessage [97] 0, .text [5]),
    (.verifyMessage [97] [5] [50], .verdict false)]

end LearnFramework.Ecc
