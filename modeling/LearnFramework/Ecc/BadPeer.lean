import LearnFramework.Ecc.OpenEcc

/-!
# Bad peers

When the peer's string is no point, or its point leads to infinity, the library
writes nothing. No result is looked at, and the caller's key becomes the 32 bytes
of a local buffer that was never initialised.
-/

namespace LearnFramework.Ecc

open Machines

variable {Key Group P : Type*} [AddCommGroup P] {lib : Libcrypto Key Group P} {curve : Curve P}

/-- The string does not decode, or the shared point is at infinity. -/
def BadPeer (lib : Libcrypto Key Group P) (s : OpenEcc Key Group) (pubKey : List UInt8) : Prop :=
  (lib.ecPointHex2point s.group (cStr pubKey) (lib.ecPointNew s.group)).1 = false ∨
    ∀ d, lib.ecKeyGet0PrivateKey s.privKey = some d → d • s.strToPubKey lib (cStr pubKey) = 0

/-- `EC_POINT_new` makes the point at infinity. -/
def NewIsInfinity (lib : Libcrypto Key Group P) : Prop := ∀ g, lib.ecPointNew g = 0

/-- The bytes of the local buffer are returned. -/
theorem calcECDHKey_of_badPeer (hlib : lib.Documented curve) (hnew : NewIsInfinity lib)
    {s : OpenEcc Key Group} (hs : Grounded lib s) {d : Nat}
    (hd : lib.ecKeyGet0PrivateKey s.privKey = some d) {pubKey : List UInt8}
    (hbad : BadPeer lib s pubKey) (buf : { b : List UInt8 // b.length = 32 }) :
    s.calcECDHKey lib pubKey buf = buf.1 := by
  have hzero : d • s.strToPubKey lib (cStr pubKey) = 0 := by
    rcases hbad with hfail | hinf
    · rw [OpenEcc.strToPubKey, hlib.hex2point_fails _ _ _ hfail, hnew, smul_zero]
    · exact hinf d hd
  have h := hlib.ecdh_fails _ hs.key_group d hd _ hzero buf.1
  rw [buf.2] at h
  exact h

/-- **No key from a bad peer**: the caller's key is unchanged exactly when it happens
to be what lies in the local buffer, and two runs agree exactly when their buffers do. -/
theorem bad_peer_key_iff (lib : Libcrypto Key Group P) (curve : Curve P)
    (hlib : lib.Documented curve) (hstore : StoresAny lib) (hnew : NewIsInfinity lib)
    (d₀ : curve.Scalar) (calls : List (Call curve)) (s : OpenEcc Key Group)
    (hrun : (openEcc lib curve).run none (.initEccCurves d₀ :: calls) = some (some s))
    (pubKey : List UInt8) (hbad : BadPeer lib s pubKey) :
    (∀ buf ecdhKey, s.calcECDHKey lib pubKey buf = ecdhKey ↔ ecdhKey = buf.1) ∧
    ∀ bufA bufB, s.calcECDHKey lib pubKey bufA = s.calcECDHKey lib pubKey bufB ↔ bufA = bufB := by
  obtain ⟨d, hd⟩ := exists_private_of_run hlib hstore hrun
  have hbuf := calcECDHKey_of_badPeer hlib hnew (grounded_of_run hlib hrun) hd hbad
  constructor
  · intro buf ecdhKey
    rw [hbuf, eq_comm]
  · intro bufA bufB
    rw [hbuf, hbuf, Subtype.ext_iff]

/-- The buffers hold the same. -/
theorem bad_peer_key_of_equal_buffers :
    OpenEcc.calcECDHKey (smallLib 21) ⟨⟨some 25, some 3, some 3⟩, 25, List.range 82⟩ []
      ⟨List.replicate 32 7, List.length_replicate⟩ = List.replicate 32 7 :=
  ((bad_peer_key_iff (smallLib 21) (smallCurve 21) (smallLib_documented 21) (fun _ _ _ => rfl)
    (fun _ => rfl) ⟨3, by decide⟩ [] ⟨⟨some 25, some 3, some 3⟩, 25, List.range 82⟩ rfl []
    (Or.inl rfl)).1 ⟨List.replicate 32 7, List.length_replicate⟩ (List.replicate 32 7)).mpr rfl

/-- An empty string replaces an empty key by 32 bytes of the buffer. -/
theorem bad_peer_changes_key :
    ¬∀ s pubKey, (openEcc (smallLib 21) (smallCurve 21)).run none
        [.initEccCurves ⟨3, by decide⟩] = some (some s) → BadPeer (smallLib 21) s pubKey →
      ∀ buf ecdhKey, s.calcECDHKey (smallLib 21) pubKey buf = ecdhKey := by
  intro h
  have hkey := h ⟨⟨some 25, some 3, some 3⟩, 25, List.range 82⟩ [] rfl (Or.inl rfl)
    ⟨List.replicate 32 7, List.length_replicate⟩ []
  exact absurd hkey (by decide)

end LearnFramework.Ecc
