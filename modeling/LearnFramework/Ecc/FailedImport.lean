import LearnFramework.Ecc.OpenEcc

/-!
# Failed imports

No result of the library is looked at: whatever the text is, the old key is
dropped, and the new one has the number that `BN_hex2bn` made of the text and the
point of a fresh draw. So a failed import leaves everything as it was only if
both happen to be the old ones.
-/

namespace LearnFramework.Ecc

open Machines

variable {Key Group P : Type*} [AddCommGroup P] {lib : Libcrypto Key Group P} {curve : Curve P}

/-- The scalar, the point and the groups are the same. -/
structure Unchanged (lib : Libcrypto Key Group P) (s s' : OpenEcc Key Group) : Prop where
  privateKey : lib.ecKeyGet0PrivateKey s'.privKey = lib.ecKeyGet0PrivateKey s.privKey
  publicKey : lib.ecKeyGet0PublicKey s'.privKey = lib.ecKeyGet0PublicKey s.privKey
  keyGroup : lib.ecKeyGet0Group s'.privKey = lib.ecKeyGet0Group s.privKey
  group : s'.group = s.group

/-- **An import of any text**, valid or not, in any state that calls have led to. It
leaves the key as it was exactly when the old scalar is what `BN_hex2bn` makes of
the text and the old point is the one of the draw. -/
theorem import_unchanged_iff (lib : Libcrypto Key Group P) (curve : Curve P)
    (hlib : lib.Documented curve) (hstore : StoresAny lib) (d₀ : curve.Scalar)
    (calls : List (Call curve)) (s : OpenEcc Key Group)
    (hrun : (openEcc lib curve).run none (.initEccCurves d₀ :: calls) = some (some s))
    (str : List UInt8) (d : curve.Scalar) :
    ∃ s', s.importPrivKey lib str d.1 = some s' ∧ (Unchanged lib s s' ↔
      lib.ecKeyGet0PrivateKey s.privKey = some (lib.bnHex2bn 0 (cStr str)).2 ∧
        lib.ecKeyGet0PublicKey s.privKey = some (d.1 • curve.generator)) := by
  have hs := grounded_of_run hlib hrun
  obtain ⟨s', k, himport, hs', hkey, hk, hpub⟩ := hs.importPrivKey hlib str d
  have hpriv : lib.ecKeyGet0PrivateKey s'.privKey = some (lib.bnHex2bn 0 (cStr str)).2 := by
    rw [hkey]
    exact hstore k hk _
  refine ⟨s', himport, ?_, ?_⟩
  · intro h
    exact ⟨h.privateKey.symm.trans hpriv, h.publicKey.symm.trans hpub⟩
  · rintro ⟨hold, holdPub⟩
    exact ⟨hpriv.trans hold.symm, hpub.trans holdPub.symm, hs'.key_group.trans hs.key_group.symm,
      Option.some.inj (hs'.group_eq.trans hs.group_eq.symm)⟩

/-- The text `3g` on a key with the scalar 3, for which the library draws 3 again. -/
theorem import_unchanged_of_lucky_draw :
    ∃ s', OpenEcc.importPrivKey (smallLib 21) ⟨⟨some 25, some 3, some 3⟩, 25, List.range 82⟩
      [51, 103] 3 = some s' ∧
        Unchanged (smallLib 21) ⟨⟨some 25, some 3, some 3⟩, 25, List.range 82⟩ s' := by
  obtain ⟨s', himport, hiff⟩ := import_unchanged_iff (smallLib 21) (smallCurve 21)
    (smallLib_documented 21) (fun _ _ _ => rfl) ⟨3, by decide⟩ []
    ⟨⟨some 25, some 3, some 3⟩, 25, List.range 82⟩ rfl [51, 103] ⟨3, by decide⟩
  exact ⟨s', himport, hiff.mpr ⟨by decide, by decide⟩⟩

/-- The empty text replaces the scalar 3 by 0. -/
theorem empty_import_changes_key :
    ¬∀ s str, ∀ d : (smallCurve 21).Scalar, (openEcc (smallLib 21) (smallCurve 21)).run none
        [.initEccCurves ⟨3, by decide⟩] = some (some s) → ¬(Call.importPrivKey str d).Valid →
      ∀ s', s.importPrivKey (smallLib 21) str d.1 = some s' → Unchanged (smallLib 21) s s' := by
  intro h
  have hbad : ∀ d : (smallCurve 21).Scalar, ¬(Call.importPrivKey [] d).Valid := fun d hv => hv.1 rfl
  have hsame := h ⟨⟨some 25, some 3, some 3⟩, 25, List.range 82⟩ [] ⟨2, by decide⟩ rfl (hbad _)
    ⟨⟨some 25, some 0, some 2⟩, 25, List.range 82⟩ rfl
  exact absurd hsame.privateKey (by decide)

end LearnFramework.Ecc
