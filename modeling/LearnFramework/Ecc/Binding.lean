import LearnFramework.Ecc.KeyPair
import LearnFramework.Lib.Cursor

/-!
# What a signature binds

`signMessage` hands the message itself over as the digest, and its length as an
`int`. ECDSA uses the leftmost bits of a digest, as many as the order has, as an
integer. So a signature made for one message is accepted for another one exactly
when these integers are the same: when two messages differ only behind these
bits, or by leading zero bytes.
-/

namespace LearnFramework.Ecc

open Machines

variable {Key Group P : Type*} [AddCommGroup P] {lib : Libcrypto Key Group P} {curve : Curve P}

/-- The integer of the leftmost bits of a digest. -/
def leftmost (bits : Nat) (digest : List UInt8) : Nat :=
  Bytes.ofBE digest >>> (8 * digest.length - bits)

/-- The bytes that a digest of an `int` length has; none when it is negative. -/
def bytesRead (digest : List UInt8) (len : Int32) : List UInt8 := digest.take len.toInt.toNat

/-- The integer that ECDSA makes of a digest. -/
def digestInteger (curve : Curve P) (digest : List UInt8) (len : Int32) : Nat :=
  leftmost curve.order.size (bytesRead digest len)

/-- Ideal ECDSA: under the signer's point a signature is valid for a digest exactly
when the digests give the same integer. -/
def BindsDigest (lib : Libcrypto Key Group P) (curve : Curve P) : Prop :=
  ∀ k, lib.ecKeyGet0Group k = lib.group → ∀ d : curve.Scalar,
    lib.ecKeyGet0PrivateKey k = some d.1 → ∀ x lenX nonce sig,
      lib.ecdsaSign x lenX k nonce = some sig → ∀ y lenY,
        lib.ecdsaValid (d.1 • curve.generator) y lenY sig (UInt32.ofNat sig.length) = true ↔
          digestInteger curve y lenY = digestInteger curve x lenX

/-- The integer that is signed for a message. -/
def signedInteger (curve : Curve P) (message : List UInt8) : Nat :=
  digestInteger curve message (Int32.ofNat message.length)

/-- **A signature binds the whole message** against another one exactly when the
integers that are signed for them differ. -/
theorem signature_binds_iff (lib : Libcrypto Key Group P) (curve : Curve P)
    (hlib : lib.Documented curve) (hbinds : BindsDigest lib curve) (s : OpenEcc Key Group)
    (d : curve.Scalar) (hs : KeyState lib curve s d.1 d.1) (m m' : List UInt8) (nonce : Nat)
    (signature pubKey : List UInt8) (hsign : s.signMessage lib m nonce = some signature) :
    (s.verifyMessage lib m' signature pubKey = true ↔ m' = m) ↔
      m' = m ∨ signedInteger curve m' ≠ signedInteger curve m := by
  have hverify : s.verifyMessage lib m' signature pubKey = true ↔
      signedInteger curve m' = signedInteger curve m := by
    rw [hs.verifyMessage_iff hlib]
    exact hbinds _ hs.key_group d hs.private_eq m _ nonce signature hsign m' _
  rw [hverify]
  by_cases hm : m' = m
  · simp [hm]
  · simp [hm]

/-! ## An instance

On the curve of seven points, a signature is the scalar that made it, with as many
zero bytes behind it as the integer of the digest says. -/

def bindingLib : Libcrypto SmallKey Nat (ZMod 7) :=
  { smallLib 21 with
    ecdsaSign := fun x len k _ => k.privateKey.map fun d =>
      UInt8.ofNat d :: List.replicate (digestInteger (smallCurve 21) x len) 0
    ecdsaVerify := fun y len sig _ k =>
      match k.publicKey, sig with
      | some q, d :: pad =>
        if q = (d.toNat : ZMod 7) ∧ pad.length = digestInteger (smallCurve 21) y len then 1 else 0
      | _, _ => 0
    ecdsaValid := fun q y len sig _ =>
      match sig with
      | d :: pad => q = (d.toNat : ZMod 7) ∧ pad.length = digestInteger (smallCurve 21) y len
      | [] => false }

theorem bindingLib_documented : bindingLib.Documented (smallCurve 21) :=
  { smallLib_documented 21 with
    verify_iff := by
      intro k q _ hq digest len sig sigLen
      have hq' : k.publicKey = some q := hq
      cases sig with
      | nil => simp [bindingLib, hq']
      | cons d pad =>
        by_cases h : q = (d.toNat : ZMod 7) ∧
            pad.length = digestInteger (smallCurve 21) digest len
        · simp [bindingLib, hq', h]
        · simp only [bindingLib, hq', decide_eq_true_eq, h, iff_false]
          decide
    sign_some := by
      intro k _ d hd digest len nonce
      have hd' : k.privateKey = some d.1 := hd
      simp [bindingLib, hd']
    sign_valid := by
      intro k _ d hd digest len nonce sig hs q
      have hd' : k.privateKey = some d.1 := hd
      have hlt : d.1 < 256 := by have := d.2.2; simp only [smallCurve] at this; omega
      simp only [bindingLib, hd', Option.map_some, Option.some.injEq] at hs
      subst hs
      simp [bindingLib, smallCurve, Nat.mod_eq_of_lt hlt] }

theorem bindingLib_bindsDigest : BindsDigest bindingLib (smallCurve 21) := by
  intro k _ d hd x lenX nonce sig hs y lenY
  have hd' : k.privateKey = some d.1 := hd
  have hlt : d.1 < 256 := by have := d.2.2; simp only [smallCurve] at this; omega
  simp only [bindingLib, hd', Option.map_some, Option.some.injEq] at hs
  subst hs
  simp [bindingLib, smallCurve, Nat.mod_eq_of_lt hlt, eq_comm]

/-- The signature of `a` is not accepted for `1`. -/
theorem signature_binds_a :
    OpenEcc.verifyMessage bindingLib ⟨⟨some 25, some 3, some 3⟩, 25, List.range 82⟩ [49]
      [3, 0, 0, 0] [] = true ↔ ([49] : List UInt8) = [97] :=
  (signature_binds_iff bindingLib (smallCurve 21) bindingLib_documented bindingLib_bindsDigest
    ⟨⟨some 25, some 3, some 3⟩, 25, List.range 82⟩ ⟨3, by decide⟩ ⟨rfl, rfl, rfl, rfl, rfl⟩
    [97] [49] 0 [3, 0, 0, 0] [] (by decide)).mpr (Or.inr (by decide))

/-- The signature of `a` is accepted for `b`. -/
theorem signature_accepted_for_other_message :
    ¬∀ (s : OpenEcc SmallKey Nat) (d : (smallCurve 21).Scalar) (m m' : List UInt8) (nonce : Nat)
      (signature pubKey : List UInt8), KeyState bindingLib (smallCurve 21) s d.1 d.1 →
        s.signMessage bindingLib m nonce = some signature →
          (s.verifyMessage bindingLib m' signature pubKey = true ↔ m' = m) := by
  intro h
  have hiff := h ⟨⟨some 25, some 3, some 3⟩, 25, List.range 82⟩ ⟨3, by decide⟩ [97] [98] 0
    [3, 0, 0, 0] [] ⟨rfl, rfl, rfl, rfl, rfl⟩ (by decide)
  exact absurd (hiff.mp (by decide)) (by decide)

end LearnFramework.Ecc
