import LearnFramework.Ecc.OpenEcc

/-!
# The key pair

`importPrivKey` generates a fresh key and then overwrites its scalar only, so the
point stays the one of the draw. The pair is consistent after an import exactly
when `EC_KEY_generate_key` happened to draw the imported scalar.
-/

namespace LearnFramework.Ecc

open Machines

variable {Key Group P : Type*} [AddCommGroup P] {lib : Libcrypto Key Group P} {curve : Curve P}

/-- The key pair of `s` fits together, after `call`. -/
structure Consistent (lib : Libcrypto Key Group P) (curve : Curve P) (s : OpenEcc Key Group)
    (call : Call curve) : Prop where
  keyPair : ∃ d, lib.ecKeyGet0PrivateKey s.privKey = some d ∧
    lib.ecKeyGet0PublicKey s.privKey = some (d • curve.generator)
  imported : ∀ str draw, call = .importPrivKey str draw →
    lib.ecKeyGet0PrivateKey s.privKey = some (Hex.value str)
  getPubKey : ∀ d, lib.ecKeyGet0PrivateKey s.privKey = some d →
    s.getPubKey lib = lib.ecPointPoint2hex s.group (d • curve.generator)
  verifies : ∀ message nonce signature pubKey, s.signMessage lib message nonce = some signature →
    s.getPubKey lib = some pubKey → s.verifyMessage lib message signature pubKey = true

/-- The key pair fits together after every call of a sequence. -/
def ConsistentThroughout (lib : Libcrypto Key Group P) (curve : Curve P)
    (calls : List (Call curve)) : Prop :=
  ∀ pre c s, pre ++ [c] <+: calls → (openEcc lib curve).run none (pre ++ [c]) = some (some s) →
    Consistent lib curve s c

theorem KeyState.verifyMessage_iff (hlib : lib.Documented curve) {s : OpenEcc Key Group}
    {x e : Nat} (h : KeyState lib curve s x e) (message signature pubKey : List UInt8) :
    s.verifyMessage lib message signature pubKey = true ↔
      lib.ecdsaValid (e • curve.generator) message (Int32.ofNat message.length) signature
        (UInt32.ofNat signature.length) = true := by
  rw [OpenEcc.verifyMessage, beq_iff_eq]
  exact hlib.verify_iff _ _ h.key_group h.public_eq _ _ _ _

theorem KeyState.getPubKey_eq {s : OpenEcc Key Group} {x e : Nat} (h : KeyState lib curve s x e) :
    s.getPubKey lib = lib.ecPointPoint2hex s.group (e • curve.generator) := by
  rw [OpenEcc.getPubKey, h.public_eq, Option.bind_some]

/-- The pair is consistent when the draw is the scalar of the call, and only then. -/
theorem consistent_iff (hlib : lib.Documented curve) {s : OpenEcc Key Group} {c : Call curve}
    (hc : c.Valid) (h : KeyState lib curve s c.scalar c.draw.1) :
    Consistent lib curve s c ↔ c.scalar = c.draw.1 := by
  constructor
  · rintro ⟨⟨d, hd, hp⟩, -, -, -⟩
    rw [h.private_eq, Option.some.injEq] at hd
    rw [h.public_eq, Option.some.injEq, ← hd] at hp
    exact ((Curve.nsmul_inj c.draw.2.2 (Call.scalar_mem hc).2).mp hp).symm
  · intro heq
    refine ⟨⟨c.scalar, h.private_eq, ?_⟩, ?_, ?_, ?_⟩
    · rw [heq]
      exact h.public_eq
    · rintro str draw rfl
      exact h.private_eq
    · intro d hd
      rw [h.private_eq, Option.some.injEq] at hd
      rw [h.getPubKey_eq, ← hd, heq]
    · intro message nonce signature pubKey hs hp
      have hpriv : lib.ecKeyGet0PrivateKey s.privKey = some c.draw.1 := by
        rw [← heq]
        exact h.private_eq
      rw [h.verifyMessage_iff hlib]
      exact (hlib.sign_valid _ h.key_group _ hpriv _ _ _ _ hs _).mpr rfl

/-- For one run, the condition is about the calls alone. -/
theorem consistentThroughout_iff (hlib : lib.Documented curve) {calls : List (Call curve)}
    (hv : ∀ c ∈ calls, c.Valid) {t : Option (OpenEcc Key Group)}
    (hrun : (openEcc lib curve).run none calls = some t) :
    ConsistentThroughout lib curve calls ↔ ∀ c ∈ calls, c.scalar = c.draw.1 := by
  constructor
  · intro h c hc
    obtain ⟨pre, post, rfl⟩ := List.append_of_mem hc
    have hle : pre ++ [c] <+: pre ++ c :: post := ⟨post, by simp⟩
    have hv' : ∀ c' ∈ pre ++ [c], c'.Valid := fun c' hc' => hv c' (hle.subset hc')
    obtain ⟨u, hu⟩ : ∃ u, (openEcc lib curve).run none (pre ++ [c]) = some u := by
      rw [List.append_cons, Machine.run_append, Option.bind_eq_some_iff] at hrun
      obtain ⟨u, hu, -⟩ := hrun
      exact ⟨u, hu⟩
    obtain ⟨s, rfl, hk⟩ := keyState_of_run hlib hv' hu
    exact (consistent_iff hlib (hv c hc) hk).mp (h pre c s hle hu)
  · intro h pre c s hle hs
    have hv' : ∀ c' ∈ pre ++ [c], c'.Valid := fun c' hc' => hv c' (hle.subset hc')
    obtain ⟨s', hs', hk⟩ := keyState_of_run hlib hv' hs
    cases hs'
    have hc : c ∈ calls := hle.subset (by simp)
    exact (consistent_iff hlib (hv c hc) hk).mpr (h c hc)

/-- **The key pair is consistent** after every call exactly when every import draws
the scalar that it imports. -/
theorem key_pair_consistent_iff (lib : Libcrypto Key Group P) (curve : Curve P)
    (hlib : lib.Documented curve) (d : curve.Scalar) (calls : List (Call curve))
    (hv : ∀ c ∈ calls, c.Valid) :
    ConsistentThroughout lib curve (.initEccCurves d :: calls) ↔
      ∀ c ∈ calls, c.scalar = c.draw.1 := by
  obtain ⟨s, hrun⟩ := run_some hlib d calls
  have hv' : ∀ c ∈ Call.initEccCurves d :: calls, c.Valid := by
    intro c hc
    rcases List.mem_cons.mp hc with rfl | hc
    · trivial
    · exact hv c hc
  rw [consistentThroughout_iff hlib hv' hrun, List.forall_mem_cons]
  exact and_iff_right rfl

/-- An import of the text `5` for which the library draws `d`. -/
def importFive (d : Nat) (h : 1 ≤ d ∧ d < 7) : Call (smallCurve 21) := .importPrivKey [53] ⟨d, h⟩

theorem importFive_valid (d : Nat) (h : 1 ≤ d ∧ d < 7) : (importFive d h).Valid :=
  ⟨by simp, List.all_eq_true.mp rfl, by decide, by decide⟩

theorem key_pair_consistent_of_lucky_draw :
    ConsistentThroughout (smallLib 21) (smallCurve 21)
      [.initEccCurves ⟨3, by decide⟩, importFive 5 (by decide)] :=
  (key_pair_consistent_iff (smallLib 21) (smallCurve 21) (smallLib_documented 21)
    ⟨3, by decide⟩ [importFive 5 (by decide)]
    (List.forall_mem_singleton.mpr (importFive_valid 5 (by decide)))).mpr
      (List.forall_mem_singleton.mpr rfl)

/-- With the draw 2, the scalar is 5 and the point is twice the generator. -/
theorem import_breaks_key_pair :
    ¬ConsistentThroughout (smallLib 21) (smallCurve 21)
      [.initEccCurves ⟨3, by decide⟩, importFive 2 (by decide)] := by
  intro h
  obtain ⟨d, hd, hp⟩ := (h [.initEccCurves ⟨3, by decide⟩] (importFive 2 (by decide))
    ⟨⟨some 25, some 5, some 2⟩, 25, List.range 82⟩ (List.prefix_refl _) rfl).keyPair
  cases hd
  exact absurd hp (by decide)

end LearnFramework.Ecc
