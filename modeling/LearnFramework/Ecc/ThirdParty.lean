import LearnFramework.Ecc.KeyPair

/-!
# Third-party verification

`verifyMessage` takes a public key and does not read it: it verifies under the
point of the verifier's own key. So it answers for the given point exactly when
that point is the verifier's own.
-/

namespace LearnFramework.Ecc

open Machines

variable {Key Group P : Type*} [AddCommGroup P] {lib : Libcrypto Key Group P} {curve : Curve P}

/-- ECDSA validity of a signature for a message under a point. -/
def ValidUnder (lib : Libcrypto Key Group P) (point : P) (message signature : List UInt8) : Prop :=
  lib.ecdsaValid point message (Int32.ofNat message.length) signature
    (UInt32.ofNat signature.length) = true

/-- A public key string that decodes to a point in the group of an instance. -/
def Decodes (lib : Libcrypto Key Group P) (s : OpenEcc Key Group) (pubKey : List UInt8)
    (point : P) : Prop :=
  lib.ecPointHex2point s.group (cStr pubKey) (lib.ecPointNew s.group) = (true, point)

/-- `b` answers for a public key as ECDSA does under a point. -/
def AnswersFor (lib : Libcrypto Key Group P) (b : OpenEcc Key Group) (pubKey : List UInt8)
    (point : P) : Prop :=
  ∀ message signature, b.verifyMessage lib message signature pubKey = true ↔
    ValidUnder lib point message signature

/-- `b` accepts what `a` signs, with a public key. -/
def Accepts (lib : Libcrypto Key Group P) (a b : OpenEcc Key Group) (pubKey : List UInt8) : Prop :=
  ∀ message nonce signature, a.signMessage lib message nonce = some signature →
    b.verifyMessage lib message signature pubKey = true

/-- The signatures made with a scalar tell its point from every other point. -/
theorem eq_of_validUnder_iff (hlib : lib.Documented curve) (e : curve.Scalar) {p : P}
    (h : ∀ message signature, ValidUnder lib (e.1 • curve.generator) message signature ↔
      ValidUnder lib p message signature) : p = e.1 • curve.generator := by
  obtain ⟨g, hg⟩ : ∃ g, lib.group = some g :=
    ⟨_, by rw [Libcrypto.group, List.getElem?_eq_getElem hlib.builtin, Option.map_some]⟩
  -- A key with this scalar signs the empty message.
  have hset := hg ▸ hlib.setGroup_group lib.ecKeyNew g
  have hgroup := (hlib.generate_group (lib.ecKeySetGroup lib.ecKeyNew g) e.1).trans hset
  have hpriv := hlib.generate_private _ hset e
  obtain ⟨sig, hsig⟩ := Option.isSome_iff_exists.mp
    (hlib.sign_some _ hgroup e hpriv [] (Int32.ofNat 0) 0)
  have hvalid := hlib.sign_valid _ hgroup e hpriv _ _ _ _ hsig
  exact (hvalid p).mp ((h [] sig).mp ((hvalid _).mpr rfl))

/-- A signature is accepted by the instances that hold the signer's point. -/
theorem accepts_iff (hlib : lib.Documented curve) {a b : OpenEcc Key Group} (xa : curve.Scalar)
    {ea xb eb : Nat} (ha : KeyState lib curve a xa.1 ea) (hb : KeyState lib curve b xb eb)
    (pubKey : List UInt8) :
    Accepts lib a b pubKey ↔ eb • curve.generator = xa.1 • curve.generator := by
  constructor
  · intro h
    obtain ⟨sig, hsig⟩ := Option.isSome_iff_exists.mp
      (hlib.sign_some _ ha.key_group xa ha.private_eq [] (Int32.ofNat 0) 0)
    have hv := (hb.verifyMessage_iff hlib [] sig pubKey).mp (h [] 0 sig hsig)
    exact (hlib.sign_valid _ ha.key_group xa ha.private_eq _ _ _ _ hsig _).mp hv
  · intro heq message nonce signature hsig
    rw [hb.verifyMessage_iff hlib, heq]
    exact (hlib.sign_valid _ ha.key_group xa ha.private_eq _ _ _ _ hsig _).mpr rfl

/-- **Third-party verification.** With a public key that decodes to `point`, the
answers of `b` are those of ECDSA under `point`, and `b` accepts the signatures of
the owner of `point`, exactly when `point` is the point of `b` itself. -/
theorem verify_third_party_iff (lib : Libcrypto Key Group P) (curve : Curve P)
    (hlib : lib.Documented curve) (callsA callsB : List (Call curve)) (cA cB : Call curve)
    (hvA : ∀ c ∈ callsA ++ [cA], c.Valid) (hvB : ∀ c ∈ callsB ++ [cB], c.Valid)
    (a b : OpenEcc Key Group)
    (hrA : (openEcc lib curve).run none (callsA ++ [cA]) = some (some a))
    (hrB : (openEcc lib curve).run none (callsB ++ [cB]) = some (some b))
    (pubKey : List UInt8) (point : P) (hdec : Decodes lib b pubKey point) :
    (AnswersFor lib b pubKey point ↔ lib.ecKeyGet0PublicKey b.privKey = some point) ∧
    (point = cA.scalar • curve.generator →
      (Accepts lib a b pubKey ↔ lib.ecKeyGet0PublicKey b.privKey = some point)) := by
  obtain ⟨_, ⟨⟩, ha⟩ := keyState_of_run hlib hvA hrA
  obtain ⟨_, ⟨⟩, hb⟩ := keyState_of_run hlib hvB hrB
  have hxA := Call.scalar_mem (hvA cA (by simp))
  have hpub : lib.ecKeyGet0PublicKey b.privKey = some point ↔
      point = cB.draw.1 • curve.generator := by
    rw [hb.public_eq, Option.some.injEq, eq_comm]
  rw [hpub]
  constructor
  · constructor
    · intro h
      refine eq_of_validUnder_iff hlib cB.draw fun message signature => ?_
      rw [← h message signature, hb.verifyMessage_iff hlib]
      rfl
    · rintro rfl message signature
      exact hb.verifyMessage_iff hlib message signature pubKey
  · rintro rfl
    rw [accepts_iff hlib ⟨cA.scalar, hxA⟩ ha hb, eq_comm]

/-- An instance answers for its own public key. -/
theorem verify_third_party_own :
    AnswersFor (smallLib 21) ⟨⟨some 25, some 5, some 5⟩, 25, List.range 82⟩ [53] (5 : ZMod 7) :=
  (verify_third_party_iff (smallLib 21) (smallCurve 21) (smallLib_documented 21) [] []
    (.initEccCurves ⟨3, by decide⟩) (.initEccCurves ⟨5, by decide⟩) (by simp [Call.Valid])
    (by simp [Call.Valid]) _ _ rfl rfl [53] 5 rfl).1.mpr rfl

/-- A signature under another party's key is rejected, although it is valid. -/
theorem verify_rejects_third_party :
    ¬∀ a b pubA, (openEcc (smallLib 21) (smallCurve 21)).run none
        [.initEccCurves ⟨3, by decide⟩] = some (some a) →
      (openEcc (smallLib 21) (smallCurve 21)).run none
        [.initEccCurves ⟨5, by decide⟩] = some (some b) →
      a.getPubKey (smallLib 21) = some pubA → Decodes (smallLib 21) b pubA (3 : ZMod 7) →
        AnswersFor (smallLib 21) b pubA (3 : ZMod 7) := by
  intro h
  have hiff := h ⟨⟨some 25, some 3, some 3⟩, 25, List.range 82⟩
    ⟨⟨some 25, some 5, some 5⟩, 25, List.range 82⟩ [51] rfl rfl rfl rfl [104, 105] [3]
  exact absurd (hiff.mpr rfl) (by decide)

end LearnFramework.Ecc
