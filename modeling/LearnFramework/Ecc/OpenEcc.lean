import LearnFramework.Lib.Machine
import LearnFramework.Ecc.Libcrypto
import Mathlib.Data.List.TakeWhile

/-!
# `OpenEcc`

The methods of the class over a libcrypto. Results that the source ignores are
ignored here; a null pointer that it would use is `none`. Before the first
`initEccCurves` the fields are uninitialised, so an instance is an `Option` and
`importPrivKey` is no step there.

`EC_KEY_generate_key` is called by `initEccCurves` and again by every
`importPrivKey`; each call carries the scalar it draws. The state after a call is
determined by the scalar and the draw of that call alone (`KeyState`): the scalar
of an import comes from its text, the public point from its draw.
-/

namespace LearnFramework.Ecc

open Machines

variable {Key Group P : Type*}

/-- `c_str()`, read up to the first NUL. -/
def cStr (s : List UInt8) : List UInt8 := s.takeWhile (· ≠ 0)

structure OpenEcc (Key Group : Type*) where
  privKey : Key
  group : Group
  curves : List Nat

namespace OpenEcc

variable (lib : Libcrypto Key Group P)

def initEccCurves (draw : Nat) : Option (OpenEcc Key Group) :=
  let curves := lib.ecGetBuiltinCurves
  curves[25]?.map fun nid =>
    let group := lib.ecGroupNewByCurveName nid
    let privKey := lib.ecKeySetGroup lib.ecKeyNew group
    ⟨lib.ecKeyGenerateKey privKey draw, group, curves⟩

def strToPrivKey (s : OpenEcc Key Group) (data : List UInt8) (draw : Nat) :
    Option (OpenEcc Key Group) :=
  let bn := (lib.bnHex2bn 0 data).2
  s.curves[25]?.map fun nid =>
    let group := lib.ecGroupNewByCurveName nid
    let privKey := lib.ecKeyGenerateKey (lib.ecKeySetGroup lib.ecKeyNew group) draw
    { s with privKey := lib.ecKeySetPrivateKey privKey bn, group := group }

def importPrivKey (s : OpenEcc Key Group) (strPrivKey : List UInt8) (draw : Nat) :
    Option (OpenEcc Key Group) := s.strToPrivKey lib (cStr strPrivKey) draw

def privKeyToStr (s : OpenEcc Key Group) : Option (List UInt8) :=
  (lib.ecKeyGet0PrivateKey s.privKey).map lib.bnBn2hex

def dumpPrivKey (s : OpenEcc Key Group) : Option (List UInt8) := s.privKeyToStr lib

def signMessage (s : OpenEcc Key Group) (message : List UInt8) (nonce : Nat) :
    Option (List UInt8) :=
  lib.ecdsaSign message (Int32.ofNat message.length) s.privKey nonce

/-- `pub_key` is not used. -/
def verifyMessage (s : OpenEcc Key Group) (message signature _pubKey : List UInt8) : Bool :=
  lib.ecdsaVerify message (Int32.ofNat message.length) signature (UInt32.ofNat signature.length)
    s.privKey == 1

def getPubKey (s : OpenEcc Key Group) : Option (List UInt8) :=
  (lib.ecKeyGet0PublicKey s.privKey).bind fun eccPubKey => lib.ecPointPoint2hex s.group eccPubKey

def strToPubKey (s : OpenEcc Key Group) (data : List UInt8) : P :=
  (lib.ecPointHex2point s.group data (lib.ecPointNew s.group)).2

/-- `shareKey` is the uninitialised local buffer. -/
def calcECDHKey (s : OpenEcc Key Group) (pubKey : List UInt8)
    (shareKey : { b : List UInt8 // b.length = 32 }) : List UInt8 :=
  let eccPubKey := s.strToPubKey lib (cStr pubKey)
  (lib.ecdhComputeKey shareKey.1 32 eccPubKey s.privKey).2

end OpenEcc

/-! ## Call sequences -/

variable [AddCommGroup P]

inductive Call (curve : Curve P) where
  | initEccCurves (draw : curve.Scalar)
  | importPrivKey (strPrivKey : List UInt8) (draw : curve.Scalar)

namespace Call

variable {curve : Curve P}

/-- The text of an import is the hex of an integer in [1, n-1]. -/
def Valid : Call curve → Prop
  | .initEccCurves _ => True
  | .importPrivKey s _ => s ≠ [] ∧ (∀ c ∈ s, Hex.isDigit c = true) ∧
      1 ≤ Hex.value s ∧ Hex.value s < curve.order

/-- What `EC_KEY_generate_key` draws during the call. -/
def draw : Call curve → curve.Scalar
  | .initEccCurves d => d
  | .importPrivKey _ d => d

/-- The scalar that the call is to install. -/
def scalar : Call curve → Nat
  | .initEccCurves d => d.1
  | .importPrivKey s _ => Hex.value s

end Call

/-- An instance of the class under calls that change its key. -/
def openEcc (lib : Libcrypto Key Group P) (curve : Curve P) :
    Machine (Option (OpenEcc Key Group)) (Call curve) where
  init := none
  step
    | _, .initEccCurves d => (OpenEcc.initEccCurves lib d.1).map some
    | none, .importPrivKey _ _ => none
    | some s, .importPrivKey str d => (s.importPrivKey lib str d.1).map some

/-! ## The state after a call -/

variable {lib : Libcrypto Key Group P} {curve : Curve P}

/-- The key of an instance: `x` is its scalar, and `e` the scalar of its point. -/
structure KeyState (lib : Libcrypto Key Group P) (curve : Curve P) (s : OpenEcc Key Group)
    (x e : Nat) : Prop where
  group_eq : some s.group = lib.group
  curves_eq : s.curves = lib.ecGetBuiltinCurves
  key_group : lib.ecKeyGet0Group s.privKey = lib.group
  private_eq : lib.ecKeyGet0PrivateKey s.privKey = some x
  public_eq : lib.ecKeyGet0PublicKey s.privKey = some (e • curve.generator)

/-- A call on an initialised instance has an effect, and `initEccCurves` on any. -/
theorem step_some (hlib : lib.Documented curve) (s : Option (OpenEcc Key Group)) (c : Call curve)
    (hs : ∀ s', s = some s' → s'.curves = lib.ecGetBuiltinCurves)
    (hc : s = none → ∃ d, c = .initEccCurves d) :
    ∃ t, (openEcc lib curve).step s c = some (some t) ∧ t.curves = lib.ecGetBuiltinCurves := by
  obtain ⟨nid, hnid⟩ : ∃ nid, lib.ecGetBuiltinCurves[25]? = some nid :=
    ⟨_, List.getElem?_eq_getElem hlib.builtin⟩
  cases c with
  | initEccCurves d =>
    have hinit : ∃ t, OpenEcc.initEccCurves lib d.1 = some t ∧
        t.curves = lib.ecGetBuiltinCurves := by
      simp [OpenEcc.initEccCurves, hnid]
    obtain ⟨t, ht, hcurves⟩ := hinit
    exact ⟨t, by simp [openEcc, ht], hcurves⟩
  | importPrivKey str d =>
    cases s with
    | none =>
      obtain ⟨_, h⟩ := hc rfl
      cases h
    | some s =>
      have himport : ∃ t, s.importPrivKey lib str d.1 = some t ∧
          t.curves = lib.ecGetBuiltinCurves := by
        simp [OpenEcc.importPrivKey, OpenEcc.strToPrivKey, hs s rfl, hnid]
      obtain ⟨t, ht, hcurves⟩ := himport
      exact ⟨t, by simp [openEcc, ht], hcurves⟩

/-- Every sequence of calls that starts with `initEccCurves` is a run. -/
theorem run_some (hlib : lib.Documented curve) (d : curve.Scalar) (calls : List (Call curve)) :
    ∃ s, (openEcc lib curve).run none (.initEccCurves d :: calls) = some (some s) := by
  obtain ⟨s, hs, hcurves⟩ := step_some hlib none (.initEccCurves d) (by simp) fun _ => ⟨d, rfl⟩
  rw [Machine.run_cons, hs, Option.bind_some]
  clear hs
  induction calls generalizing s with
  | nil => exact ⟨s, rfl⟩
  | cons c calls ih =>
    obtain ⟨t, ht, hcurves'⟩ := step_some hlib (some s) c (by rintro _ ⟨⟩; exact hcurves) (by simp)
    rw [Machine.run_cons, ht, Option.bind_some]
    exact ih t hcurves'

theorem takeWhile_hex {s : List UInt8} (h : ∀ c ∈ s, Hex.isDigit c = true) :
    (cStr s).takeWhile Hex.isDigit = s ∧ (cStr s).head? ≠ some 45 := by
  have hc : cStr s = s := by
    refine List.takeWhile_eq_self_iff.mpr fun c hc => ?_
    have hd := h c hc
    simp only [ne_eq, decide_not, Bool.not_eq_eq_eq_not, Bool.not_true, decide_eq_false_iff_not]
    rintro rfl
    exact absurd hd (by decide)
  rw [hc]
  refine ⟨List.takeWhile_eq_self_iff.mpr h, fun hh => ?_⟩
  have hd := h 45 (List.mem_of_mem_head? hh)
  exact absurd hd (by decide)

theorem Call.scalar_mem {c : Call curve} (h : c.Valid) : 1 ≤ c.scalar ∧ c.scalar < curve.order := by
  cases c with
  | initEccCurves d => exact d.2
  | importPrivKey s d => exact ⟨h.2.2.1, h.2.2.2⟩

/-- One call sets the whole key. -/
theorem keyState_of_step (hlib : lib.Documented curve) {s t : Option (OpenEcc Key Group)}
    {c : Call curve} (hc : c.Valid) (hs : ∀ s', s = some s' → s'.curves = lib.ecGetBuiltinCurves)
    (h : (openEcc lib curve).step s c = some t) :
    ∃ s', t = some s' ∧ KeyState lib curve s' c.scalar c.draw.1 := by
  obtain ⟨nid, hnid⟩ : ∃ nid, lib.ecGetBuiltinCurves[25]? = some nid :=
    ⟨_, List.getElem?_eq_getElem hlib.builtin⟩
  have hgroup : lib.group = some (lib.ecGroupNewByCurveName nid) := by
    rw [Libcrypto.group, hnid, Option.map_some]
  have hkey := hgroup ▸ hlib.setGroup_group lib.ecKeyNew _
  cases c with
  | initEccCurves d =>
    obtain ⟨s', hs', rfl⟩ := Option.map_eq_some_iff.mp h
    simp only [OpenEcc.initEccCurves, hnid, Option.map_some, Option.some.injEq] at hs'
    subst hs'
    exact ⟨_, rfl, hgroup.symm, rfl, (hlib.generate_group _ _).trans hkey,
      hlib.generate_private _ hkey d, hlib.generate_public _ hkey d⟩
  | importPrivKey str d =>
    cases s with
    | none => cases h
    | some s =>
      obtain ⟨s', hs', rfl⟩ := Option.map_eq_some_iff.mp h
      obtain ⟨hdig, hhead⟩ := takeWhile_hex hc.2.1
      have hbn : (lib.bnHex2bn 0 (cStr str)).2 = Hex.value str := by
        rw [hlib.hex2bn _ _ hhead, hdig, if_neg hc.1]
      simp only [OpenEcc.importPrivKey, OpenEcc.strToPrivKey, hs s rfl, hnid, hbn,
        Option.map_some, Option.some.injEq] at hs'
      subst hs'
      have hkey' := (hlib.generate_group (lib.ecKeySetGroup lib.ecKeyNew _) d.1).trans hkey
      exact ⟨_, rfl, hgroup.symm, rfl, (hlib.setPrivate_group _ _).trans hkey',
        hlib.setPrivate_private _ hkey' ⟨Hex.value str, hc.2.2⟩,
        (hlib.setPrivate_public _ _).trans (hlib.generate_public _ hkey d)⟩

/-- After a run the key is the one that its last call has set. -/
theorem keyState_of_run (hlib : lib.Documented curve) {calls : List (Call curve)}
    {c : Call curve} (hv : ∀ c' ∈ calls ++ [c], c'.Valid) {t : Option (OpenEcc Key Group)}
    (h : (openEcc lib curve).run none (calls ++ [c]) = some t) :
    ∃ s, t = some s ∧ KeyState lib curve s c.scalar c.draw.1 := by
  induction calls using List.reverseRecOn generalizing c t with
  | nil =>
    obtain ⟨u, hu, hr⟩ := Machine.run_cons_some.mp h
    cases hr
    exact keyState_of_step hlib (hv c (by simp)) (by simp) hu
  | append_singleton calls c' ih =>
    rw [Machine.run_concat, Option.bind_eq_some_iff] at h
    obtain ⟨u, hu, hstep⟩ := h
    obtain ⟨s, rfl, hk⟩ := ih (fun d hd => hv d (List.mem_append_left _ hd)) hu
    exact keyState_of_step hlib (hv c (by simp)) (by rintro _ ⟨⟩; exact hk.curves_eq) hstep

/-! ## Any calls -/

/-- The group of an instance and of its key, whatever has been imported. -/
structure Grounded (lib : Libcrypto Key Group P) (s : OpenEcc Key Group) : Prop where
  group_eq : some s.group = lib.group
  curves_eq : s.curves = lib.ecGetBuiltinCurves
  key_group : lib.ecKeyGet0Group s.privKey = lib.group

/-- `EC_KEY_set_private_key` stores any number; it does not check the range. -/
def StoresAny (lib : Libcrypto Key Group P) : Prop :=
  ∀ k, lib.ecKeyGet0Group k = lib.group → ∀ n,
    lib.ecKeyGet0PrivateKey (lib.ecKeySetPrivateKey k n) = some n

/-- An import always installs the number that `BN_hex2bn` leaves, valid or not, and
the point of the draw. -/
theorem Grounded.importPrivKey (hlib : lib.Documented curve) {s : OpenEcc Key Group}
    (hs : Grounded lib s) (str : List UInt8) (d : curve.Scalar) :
    ∃ s' k, s.importPrivKey lib str d.1 = some s' ∧ Grounded lib s' ∧
      s'.privKey = lib.ecKeySetPrivateKey k (lib.bnHex2bn 0 (cStr str)).2 ∧
      lib.ecKeyGet0Group k = lib.group ∧
      lib.ecKeyGet0PublicKey s'.privKey = some (d.1 • curve.generator) := by
  obtain ⟨nid, hnid⟩ : ∃ nid, lib.ecGetBuiltinCurves[25]? = some nid :=
    ⟨_, List.getElem?_eq_getElem hlib.builtin⟩
  have hgroup : lib.group = some (lib.ecGroupNewByCurveName nid) := by
    rw [Libcrypto.group, hnid, Option.map_some]
  have hkey := hgroup ▸ hlib.setGroup_group lib.ecKeyNew _
  have hkey' := (hlib.generate_group (lib.ecKeySetGroup lib.ecKeyNew _) d.1).trans hkey
  have himport : s.importPrivKey lib str d.1 = some
      { s with
        privKey := lib.ecKeySetPrivateKey (lib.ecKeyGenerateKey (lib.ecKeySetGroup lib.ecKeyNew
          (lib.ecGroupNewByCurveName nid)) d.1) (lib.bnHex2bn 0 (cStr str)).2
        group := lib.ecGroupNewByCurveName nid } := by
    rw [OpenEcc.importPrivKey, OpenEcc.strToPrivKey, hs.curves_eq, hnid, Option.map_some]
  exact ⟨_, _, himport, ⟨hgroup.symm, hs.curves_eq, (hlib.setPrivate_group _ _).trans hkey'⟩, rfl,
    hkey', (hlib.setPrivate_public _ _).trans (hlib.generate_public _ hkey d)⟩

theorem grounded_initEccCurves (hlib : lib.Documented curve) {s : OpenEcc Key Group}
    {d : curve.Scalar} (h : OpenEcc.initEccCurves lib d.1 = some s) :
    Grounded lib s ∧ lib.ecKeyGet0PrivateKey s.privKey = some d.1 := by
  obtain ⟨nid, hnid⟩ : ∃ nid, lib.ecGetBuiltinCurves[25]? = some nid :=
    ⟨_, List.getElem?_eq_getElem hlib.builtin⟩
  have hgroup : lib.group = some (lib.ecGroupNewByCurveName nid) := by
    rw [Libcrypto.group, hnid, Option.map_some]
  have hkey := hgroup ▸ hlib.setGroup_group lib.ecKeyNew _
  simp only [OpenEcc.initEccCurves, hnid, Option.map_some, Option.some.injEq] at h
  subst h
  exact ⟨⟨hgroup.symm, rfl, (hlib.generate_group _ _).trans hkey⟩, hlib.generate_private _ hkey d⟩

/-- What `initEccCurves` establishes and every import keeps, calls keep. -/
theorem invariant_of_run {Q : OpenEcc Key Group → Prop}
    (hinit : ∀ (d : curve.Scalar) s, OpenEcc.initEccCurves lib d.1 = some s → Q s)
    (himport : ∀ s str (d : curve.Scalar) s', Q s → s.importPrivKey lib str d.1 = some s' → Q s')
    {calls : List (Call curve)} {s : OpenEcc Key Group}
    (h : (openEcc lib curve).run none calls = some (some s)) : Q s := by
  have hstep : ∀ s c t, (∀ s', s = some s' → Q s') →
      (openEcc lib curve).step s c = some t → ∀ t', t = some t' → Q t' := by
    intro s c t hs ht t' htt'
    subst htt'
    cases c with
    | initEccCurves d =>
      obtain ⟨u, hu, hut⟩ := Option.map_eq_some_iff.mp ht
      cases hut
      exact hinit d _ hu
    | importPrivKey str d =>
      cases s with
      | none => cases ht
      | some s =>
        obtain ⟨u, hu, hut⟩ := Option.map_eq_some_iff.mp ht
        cases hut
        exact himport s str d _ (hs s rfl) hu
  exact Machine.run_invariant (I := fun s => ∀ s', s = some s' → Q s') hstep (by simp) h s rfl

/-- After any calls, an instance is grounded. -/
theorem grounded_of_run (hlib : lib.Documented curve) {calls : List (Call curve)}
    {s : OpenEcc Key Group} (h : (openEcc lib curve).run none calls = some (some s)) :
    Grounded lib s := by
  refine invariant_of_run (fun d s hs => (grounded_initEccCurves hlib hs).1) ?_ h
  intro s str d s' hs himport
  obtain ⟨t, k, ht, hground, -⟩ := hs.importPrivKey hlib str d
  rw [himport, Option.some.injEq] at ht
  subst ht
  exact hground

/-- After any calls, there is a scalar. -/
theorem exists_private_of_run (hlib : lib.Documented curve) (hstore : StoresAny lib)
    {calls : List (Call curve)} {s : OpenEcc Key Group}
    (h : (openEcc lib curve).run none calls = some (some s)) :
    ∃ x, lib.ecKeyGet0PrivateKey s.privKey = some x := by
  suffices hs : Grounded lib s ∧ ∃ x, lib.ecKeyGet0PrivateKey s.privKey = some x from hs.2
  refine invariant_of_run (Q := fun s => Grounded lib s ∧ ∃ x,
    lib.ecKeyGet0PrivateKey s.privKey = some x) (fun d s hs => ?_) ?_ h
  · obtain ⟨hground, hpriv⟩ := grounded_initEccCurves hlib hs
    exact ⟨hground, _, hpriv⟩
  · intro s str d s' hs himport
    obtain ⟨t, k, ht, hground, hkey, hk, -⟩ := hs.1.importPrivKey hlib str d
    rw [himport, Option.some.injEq] at ht
    subst ht
    rw [hkey]
    exact ⟨hground, _, hstore k hk _⟩

end LearnFramework.Ecc
