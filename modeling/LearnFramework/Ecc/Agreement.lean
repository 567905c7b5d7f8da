import LearnFramework.Ecc.KeyPair

/-!
# Key agreement

Each side multiplies the other's published point by its own scalar. The library
writes the first bytes of the x-coordinate over the 32-byte buffer, as many as
the field has; what is left of the buffer was never initialised. So the two keys
agree for every content of the buffers exactly when the field has at least 32
bytes and the x-coordinates agree in the first 32, which they do once each side
publishes the point of its scalar.
-/

namespace LearnFramework.Ecc

open Machines

variable {Key Group P : Type*} [AddCommGroup P] {lib : Libcrypto Key Group P} {curve : Curve P}

/-- Both sides derive the same 32 bytes, whatever their buffers hold. -/
def Agree (lib : Libcrypto Key Group P) (a b : OpenEcc Key Group) (pubA pubB : List UInt8) : Prop :=
  ∀ bufA bufB, (a.calcECDHKey lib pubB bufA).length = 32 ∧
    a.calcECDHKey lib pubB bufA = b.calcECDHKey lib pubA bufB

/-- A published point is read back by every instance. -/
theorem KeyState.strToPubKey_eq (hlib : lib.Documented curve) {a b : OpenEcc Key Group}
    {xa ea xb eb : Nat} (ha : KeyState lib curve a xa ea) (hb : KeyState lib curve b xb eb)
    {pub : List UInt8} (hp : b.getPubKey lib = some pub) :
    a.strToPubKey lib (cStr pub) = eb • curve.generator := by
  rw [hb.getPubKey_eq] at hp
  have hgroup : a.group = b.group := Option.some.inj (ha.group_eq.trans hb.group_eq.symm)
  have hpub : cStr pub = pub := by
    obtain ⟨s, hs, h0⟩ := hlib.point2hex_some b.group hb.group_eq (eb • curve.generator)
    rw [hp, Option.some.injEq] at hs
    subst hs
    refine List.takeWhile_eq_self_iff.mpr fun c hc => ?_
    simp only [ne_eq, decide_not, Bool.not_eq_eq_eq_not, Bool.not_true, decide_eq_false_iff_not]
    rintro rfl
    exact h0 hc
  rw [OpenEcc.strToPubKey, hpub, hgroup]
  exact congrArg Prod.snd (hlib.hex2point_point2hex _ hb.group_eq _ _ hp _)

/-- The derived key: the x-coordinate first, then what the buffer held. -/
theorem KeyState.calcECDHKey_eq (hlib : lib.Documented curve) {a b : OpenEcc Key Group}
    (xa eb : curve.Scalar) {ea xb : Nat} (ha : KeyState lib curve a xa.1 ea)
    (hb : KeyState lib curve b xb eb.1) {pub : List UInt8} (hp : b.getPubKey lib = some pub)
    (buf : { b : List UInt8 // b.length = 32 }) :
    a.calcECDHKey lib pub buf =
      (curve.xBytes ((xa.1 * eb.1) • curve.generator)).take 32 ++ buf.1.drop curve.fieldBytes := by
  have hne : xa.1 • eb.1 • curve.generator ≠ 0 := by
    rw [smul_smul]
    exact Curve.mul_nsmul_ne_zero xa eb
  have h := hlib.ecdh_writes _ ha.key_group _ ha.private_eq _ hne buf.1
  rw [buf.2, smul_smul] at h
  simp only [OpenEcc.calcECDHKey, ha.strToPubKey_eq hlib hb hp]
  exact h

/-- Two buffers that start with `n`-byte values agree everywhere only if the values
cover them. -/
theorem take_append_drop_eq_iff {x y : List UInt8} {n : Nat} (hx : x.length = n)
    (hy : y.length = n) :
    (∀ bufA bufB : { b : List UInt8 // b.length = 32 },
      x.take 32 ++ bufA.1.drop n = y.take 32 ++ bufB.1.drop n) ↔
    32 ≤ n ∧ x.take 32 = y.take 32 := by
  constructor
  · intro h
    have h01 := h ⟨List.replicate 32 0, List.length_replicate⟩
      ⟨List.replicate 32 1, List.length_replicate⟩
    have hlen : (x.take 32).length = (y.take 32).length := by simp [hx, hy]
    obtain ⟨htake, hdrop⟩ := List.append_inj h01 hlen
    refine ⟨?_, htake⟩
    by_contra hn
    simp only [List.drop_replicate] at hdrop
    obtain ⟨k, hk⟩ : ∃ k, 32 - n = k + 1 := ⟨32 - n - 1, by omega⟩
    rw [hk, List.replicate_succ, List.replicate_succ] at hdrop
    exact absurd (List.cons.inj hdrop).1 (by decide)
  · rintro ⟨hn, htake⟩ bufA bufB
    rw [htake, List.drop_of_length_le (by rw [bufA.2]; exact hn),
      List.drop_of_length_le (by rw [bufB.2]; exact hn)]

theorem agree_iff (hlib : lib.Documented curve) {a b : OpenEcc Key Group}
    (xa ea xb eb : curve.Scalar) (ha : KeyState lib curve a xa.1 ea.1)
    (hb : KeyState lib curve b xb.1 eb.1) {pubA pubB : List UInt8}
    (hA : a.getPubKey lib = some pubA) (hB : b.getPubKey lib = some pubB) :
    Agree lib a b pubA pubB ↔ 32 ≤ curve.fieldBytes ∧
      (curve.xBytes ((xa.1 * eb.1) • curve.generator)).take 32 =
        (curve.xBytes ((xb.1 * ea.1) • curve.generator)).take 32 := by
  have hx := curve.xBytes_length _ (Curve.mul_nsmul_ne_zero xa eb)
  have hy := curve.xBytes_length _ (Curve.mul_nsmul_ne_zero xb ea)
  rw [← take_append_drop_eq_iff hx hy, Agree]
  refine forall₂_congr fun bufA bufB => ?_
  rw [ha.calcECDHKey_eq hlib xa eb hb hB, hb.calcECDHKey_eq hlib xb ea ha hA]
  refine and_iff_right ?_
  simp only [List.length_append, List.length_take, List.length_drop, hx, bufA.2]
  omega

/-- **Key agreement.** Between instances whose last call drew the scalar that it
installed, the keys agree for all buffers exactly when the field has at least 32
bytes; between any others they moreover need equal x-coordinates. -/
theorem key_agreement_iff (lib : Libcrypto Key Group P) (curve : Curve P)
    (hlib : lib.Documented curve) (callsA callsB : List (Call curve)) (cA cB : Call curve)
    (hvA : ∀ c ∈ callsA ++ [cA], c.Valid) (hvB : ∀ c ∈ callsB ++ [cB], c.Valid)
    (a b : OpenEcc Key Group)
    (hrA : (openEcc lib curve).run none (callsA ++ [cA]) = some (some a))
    (hrB : (openEcc lib curve).run none (callsB ++ [cB]) = some (some b))
    (pubA pubB : List UInt8) (hA : a.getPubKey lib = some pubA) (hB : b.getPubKey lib = some pubB) :
    (cA.scalar = cA.draw.1 → cB.scalar = cB.draw.1 →
      (Agree lib a b pubA pubB ↔ 32 ≤ curve.fieldBytes)) ∧
    (Agree lib a b pubA pubB ↔ 32 ≤ curve.fieldBytes ∧
      (curve.xBytes ((cA.scalar * cB.draw.1) • curve.generator)).take 32 =
        (curve.xBytes ((cB.scalar * cA.draw.1) • curve.generator)).take 32) := by
  obtain ⟨_, ⟨⟩, ha⟩ := keyState_of_run hlib hvA hrA
  obtain ⟨_, ⟨⟩, hb⟩ := keyState_of_run hlib hvB hrB
  have hxA := Call.scalar_mem (hvA cA (by simp))
  have hxB := Call.scalar_mem (hvB cB (by simp))
  have h := agree_iff hlib ⟨cA.scalar, hxA⟩ cA.draw ⟨cB.scalar, hxB⟩ cB.draw ha hb hA hB
  refine ⟨fun hdA hdB => h.trans (and_iff_left ?_), h⟩
  simp only [hdA, hdB, Nat.mul_comm]

/-- Two instances on a field of 32 bytes. -/
theorem key_agreement_32 :
    Agree (smallLib 32) ⟨⟨some 25, some 3, some 3⟩, 25, List.range 82⟩
      ⟨⟨some 25, some 5, some 5⟩, 25, List.range 82⟩ [51] [53] :=
  ((key_agreement_iff (smallLib 32) (smallCurve 32) (smallLib_documented 32) [] []
    (.initEccCurves ⟨3, by decide⟩) (.initEccCurves ⟨5, by decide⟩) (by simp [Call.Valid])
    (by simp [Call.Valid]) _ _ rfl rfl [51] [53] rfl rfl).1 rfl rfl).mpr le_rfl

/-- On a field of 21 bytes the last 11 bytes of a key are those of the buffer. -/
theorem no_key_agreement_21 :
    ¬∀ a b pubA pubB, (openEcc (smallLib 21) (smallCurve 21)).run none
        [.initEccCurves ⟨3, by decide⟩] = some (some a) →
      (openEcc (smallLib 21) (smallCurve 21)).run none
        [.initEccCurves ⟨5, by decide⟩] = some (some b) →
      a.getPubKey (smallLib 21) = some pubA → b.getPubKey (smallLib 21) = some pubB →
        Agree (smallLib 21) a b pubA pubB := by
  intro h
  have hagree := h ⟨⟨some 25, some 3, some 3⟩, 25, List.range 82⟩
    ⟨⟨some 25, some 5, some 5⟩, 25, List.range 82⟩ [51] [53] rfl rfl rfl rfl
  have h01 := (hagree ⟨List.replicate 32 0, rfl⟩ ⟨List.replicate 32 1, rfl⟩).2
  exact absurd h01 (by decide)

end LearnFramework.Ecc
