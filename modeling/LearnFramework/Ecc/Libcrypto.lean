import LearnFramework.Lib.Hex
import Mathlib.Data.ZMod.Basic
import Mathlib.GroupTheory.OrderOfElement
import Mathlib.Algebra.Field.ZMod

/-!
# What `OpenEcc` uses of libcrypto

The library is a parameter: `Libcrypto` has the functions that the class calls,
and `Documented` what their documentation says of them. A C string is a list of
bytes without the final NUL; `EC_KEY` objects are values, so a function that
changes one returns the changed one.
-/

namespace LearnFramework.Ecc

/-- An elliptic curve with a generator of prime order; `xBytes` is the x-coordinate
of a point other than infinity, as a field element of `fieldBytes` bytes. -/
structure Curve (P : Type*) [AddCommGroup P] where
  generator : P
  order : Nat
  order_prime : order.Prime
  addOrderOf_generator : addOrderOf generator = order
  fieldBytes : Nat
  xBytes : P → List UInt8
  xBytes_length : ∀ q, q ≠ 0 → (xBytes q).length = fieldBytes

namespace Curve

variable {P : Type*} [AddCommGroup P] (curve : Curve P)

/-- The integers in [1, n-1]. -/
abbrev Scalar : Type := { d : Nat // 1 ≤ d ∧ d < curve.order }

variable {curve}

theorem nsmul_inj {d e : Nat} (hd : d < curve.order) (he : e < curve.order) :
    d • curve.generator = e • curve.generator ↔ d = e := by
  rw [← curve.addOrderOf_generator] at hd he
  exact (nsmul_injOn_Iio_addOrderOf (x := curve.generator)).eq_iff hd he

/-- The order is prime, so a product of scalars does not reach infinity. -/
theorem mul_nsmul_ne_zero (d e : curve.Scalar) : (d.1 * e.1) • curve.generator ≠ 0 := by
  intro h
  have hdvd := addOrderOf_dvd_of_nsmul_eq_zero h
  rw [curve.addOrderOf_generator] at hdvd
  rcases curve.order_prime.dvd_mul.mp hdvd with hd | he
  · exact absurd (Nat.le_of_dvd d.2.1 hd) (by have := d.2.2; omega)
  · exact absurd (Nat.le_of_dvd e.2.1 he) (by have := e.2.2; omega)

end Curve

/-- The functions of libcrypto. Pointers that may be null are options. -/
structure Libcrypto (Key Group P : Type*) where
  /-- the `nid`s of `EC_get_builtin_curves` -/
  ecGetBuiltinCurves : List Nat
  ecGroupNewByCurveName : Nat → Group
  ecKeyNew : Key
  ecKeySetGroup : Key → Group → Key
  /-- `EC_KEY_generate_key`, with the scalar that it draws -/
  ecKeyGenerateKey : Key → Nat → Key
  ecKeySetPrivateKey : Key → Nat → Key
  ecKeyGet0Group : Key → Option Group
  ecKeyGet0PrivateKey : Key → Option Nat
  ecKeyGet0PublicKey : Key → Option P
  /-- the result and the number after the call, from the number before and the text -/
  bnHex2bn : Nat → List UInt8 → Nat × Nat
  bnBn2hex : Nat → List UInt8
  /-- `ECDSA_sign`, with the nonce that it draws; `none` when it fails -/
  ecdsaSign : List UInt8 → Int32 → Key → Nat → Option (List UInt8)
  ecdsaVerify : List UInt8 → Int32 → List UInt8 → UInt32 → Key → Int32
  /-- ECDSA: a signature is valid for a digest under a public point -/
  ecdsaValid : P → List UInt8 → Int32 → List UInt8 → UInt32 → Bool
  ecPointNew : Group → P
  /-- with `POINT_CONVERSION_COMPRESSED` -/
  ecPointPoint2hex : Group → P → Option (List UInt8)
  /-- whether it succeeds, and the point after the call, from the point before -/
  ecPointHex2point : Group → List UInt8 → P → Bool × P
  /-- the result and the buffer after the call, from the buffer before and its size -/
  ecdhComputeKey : List UInt8 → Nat → P → Key → Int × List UInt8

namespace Libcrypto

variable {Key Group P : Type*}

/-- The group of `curves_[25]`. -/
def group (lib : Libcrypto Key Group P) : Option Group :=
  lib.ecGetBuiltinCurves[25]?.map lib.ecGroupNewByCurveName

/-- What the documentation says, for the curve of `curves_[25]`. -/
structure Documented [AddCommGroup P] (lib : Libcrypto Key Group P) (curve : Curve P) : Prop where
  builtin : 25 < lib.ecGetBuiltinCurves.length
  setGroup_group : ∀ k g, lib.ecKeyGet0Group (lib.ecKeySetGroup k g) = some g
  generate_group : ∀ k d, lib.ecKeyGet0Group (lib.ecKeyGenerateKey k d) = lib.ecKeyGet0Group k
  generate_private : ∀ k, lib.ecKeyGet0Group k = lib.group → ∀ d : curve.Scalar,
    lib.ecKeyGet0PrivateKey (lib.ecKeyGenerateKey k d.1) = some d.1
  generate_public : ∀ k, lib.ecKeyGet0Group k = lib.group → ∀ d : curve.Scalar,
    lib.ecKeyGet0PublicKey (lib.ecKeyGenerateKey k d.1) = some (d.1 • curve.generator)
  setPrivate_group : ∀ k d, lib.ecKeyGet0Group (lib.ecKeySetPrivateKey k d) = lib.ecKeyGet0Group k
  setPrivate_private : ∀ k, lib.ecKeyGet0Group k = lib.group → ∀ d : curve.Scalar,
    lib.ecKeyGet0PrivateKey (lib.ecKeySetPrivateKey k d.1) = some d.1
  setPrivate_public : ∀ k d,
    lib.ecKeyGet0PublicKey (lib.ecKeySetPrivateKey k d) = lib.ecKeyGet0PublicKey k
  /-- the longest run of hex digits at the start is parsed, unless it is empty -/
  hex2bn : ∀ bn s, s.head? ≠ some 45 → lib.bnHex2bn bn s =
    if s.takeWhile Hex.isDigit = [] then (0, bn)
    else ((s.takeWhile Hex.isDigit).length, Hex.value (s.takeWhile Hex.isDigit))
  verify_iff : ∀ k q, lib.ecKeyGet0Group k = lib.group → lib.ecKeyGet0PublicKey k = some q →
    ∀ digest len sig sigLen, lib.ecdsaVerify digest len sig sigLen k = 1 ↔
      lib.ecdsaValid q digest len sig sigLen = true
  sign_some : ∀ k, lib.ecKeyGet0Group k = lib.group → ∀ d : curve.Scalar,
    lib.ecKeyGet0PrivateKey k = some d.1 →
      ∀ digest len nonce, (lib.ecdsaSign digest len k nonce).isSome = true
  sign_valid : ∀ k, lib.ecKeyGet0Group k = lib.group → ∀ d : curve.Scalar,
    lib.ecKeyGet0PrivateKey k = some d.1 →
      ∀ digest len nonce sig, lib.ecdsaSign digest len k nonce = some sig →
        ∀ q, lib.ecdsaValid q digest len sig (UInt32.ofNat sig.length) = true ↔
          q = d.1 • curve.generator
  point2hex_some : ∀ g, some g = lib.group → ∀ q, ∃ s, lib.ecPointPoint2hex g q = some s ∧ 0 ∉ s
  hex2point_point2hex : ∀ g, some g = lib.group → ∀ q s, lib.ecPointPoint2hex g q = some s →
    ∀ before, lib.ecPointHex2point g s before = (true, q)
  hex2point_fails : ∀ g s before, (lib.ecPointHex2point g s before).1 = false →
    (lib.ecPointHex2point g s before).2 = before
  ecdh_writes : ∀ k, lib.ecKeyGet0Group k = lib.group → ∀ d, lib.ecKeyGet0PrivateKey k = some d →
    ∀ q, d • q ≠ 0 → ∀ out : List UInt8, (lib.ecdhComputeKey out out.length q k).2 =
      (curve.xBytes (d • q)).take out.length ++ out.drop curve.fieldBytes
  ecdh_fails : ∀ k, lib.ecKeyGet0Group k = lib.group → ∀ d, lib.ecKeyGet0PrivateKey k = some d →
    ∀ q, d • q = 0 → ∀ out : List UInt8, (lib.ecdhComputeKey out out.length q k).2 = out

end Libcrypto

/-! ## A curve of seven points

The smallest instance that behaves as documented: points are integers modulo 7,
a signature is the scalar that made it, and a point is written as one digit. -/

structure SmallKey where
  group : Option Nat
  privateKey : Option Nat
  publicKey : Option (ZMod 7)
  deriving DecidableEq

def smallCurve (fieldBytes : Nat) : Curve (ZMod 7) where
  generator := 1
  order := 7
  order_prime := by decide
  addOrderOf_generator := ZMod.addOrderOf_one 7
  fieldBytes := fieldBytes
  xBytes q := List.replicate fieldBytes (UInt8.ofNat (q.val * (7 - q.val)))
  xBytes_length _ _ := List.length_replicate

def smallLib (fieldBytes : Nat) : Libcrypto SmallKey Nat (ZMod 7) where
  ecGetBuiltinCurves := List.range 82
  ecGroupNewByCurveName nid := nid
  ecKeyNew := ⟨none, none, none⟩
  ecKeySetGroup k g := { k with group := some g }
  ecKeyGenerateKey k d := { k with privateKey := some d, publicKey := some (d : ZMod 7) }
  ecKeySetPrivateKey k d := { k with privateKey := some d }
  ecKeyGet0Group := SmallKey.group
  ecKeyGet0PrivateKey := SmallKey.privateKey
  ecKeyGet0PublicKey := SmallKey.publicKey
  bnHex2bn bn s :=
    if s.takeWhile Hex.isDigit = [] then (0, bn)
    else ((s.takeWhile Hex.isDigit).length, Hex.value (s.takeWhile Hex.isDigit))
  bnBn2hex n := [UInt8.ofNat (48 + n)]
  ecdsaSign _ _ k _ := k.privateKey.map fun d => [UInt8.ofNat d]
  ecdsaVerify _ _ sig _ k :=
    match k.publicKey, sig with
    | some q, [d] => if q = (d.toNat : ZMod 7) then 1 else 0
    | _, _ => 0
  ecdsaValid q _ _ sig _ :=
    match sig with
    | [d] => q = (d.toNat : ZMod 7)
    | _ => false
  ecPointNew _ := 0
  ecPointPoint2hex _ q := some [UInt8.ofNat (48 + q.val)]
  ecPointHex2point _ s before :=
    match s with
    | [c] => if 48 ≤ c ∧ c < 55 then (true, ((c.toNat - 48 : Nat) : ZMod 7)) else (false, before)
    | _ => (false, before)
  ecdhComputeKey out size q k :=
    match k.privateKey with
    | some d =>
      if d • q = 0 then (-1, out)
      else (min fieldBytes size,
        ((smallCurve fieldBytes).xBytes (d • q)).take size ++ out.drop fieldBytes)
    | none => (-1, out)

theorem smallLib_documented (fieldBytes : Nat) :
    (smallLib fieldBytes).Documented (smallCurve fieldBytes) where
  builtin := by simp [smallLib]
  setGroup_group _ _ := rfl
  generate_group _ _ := rfl
  generate_private _ _ _ := rfl
  generate_public _ _ d := by simp [smallLib, smallCurve]
  setPrivate_group _ _ := rfl
  setPrivate_private _ _ _ := rfl
  setPrivate_public _ _ := rfl
  hex2bn _ _ _ := rfl
  verify_iff k q _ hq digest len sig sigLen := by
    have hq' : k.publicKey = some q := hq
    match sig with
    | [] => simp [smallLib, hq']
    | [d] => by_cases h : q = (d.toNat : ZMod 7) <;> simp [smallLib, hq', h]
    | _ :: _ :: _ => simp [smallLib, hq']
  sign_some k _ d hd digest len nonce := by
    have hd' : k.privateKey = some d.1 := hd
    simp [smallLib, hd']
  sign_valid k _ d hd digest len nonce sig hs q := by
    have hd' : k.privateKey = some d.1 := hd
    have hlt : d.1 < 256 := by have := d.2.2; simp only [smallCurve] at this; omega
    simp only [smallLib, hd', Option.map_some, Option.some.injEq] at hs
    subst hs
    simp [smallLib, smallCurve, Nat.mod_eq_of_lt hlt]
  point2hex_some g _ q := by
    refine ⟨_, rfl, ?_⟩
    revert q
    decide
  hex2point_point2hex g _ q s hs before := by
    have hdigit : ∀ q : ZMod 7, (48 ≤ UInt8.ofNat (48 + q.val) ∧ UInt8.ofNat (48 + q.val) < 55) ∧
        (((UInt8.ofNat (48 + q.val)).toNat - 48 : Nat) : ZMod 7) = q := by decide
    simp only [smallLib, Option.some.injEq] at hs
    subst hs
    simp only [smallLib, if_pos (hdigit q).1, (hdigit q).2]
  hex2point_fails g s before h := by
    simp only [smallLib] at h ⊢
    split at h
    · split at h
      · cases h
      · rename_i hc
        rw [if_neg hc]
    · rfl
  ecdh_writes k _ d hd q hne out := by
    have hd' : k.privateKey = some d := hd
    simp only [smallLib, hd', if_neg hne]
    rfl
  ecdh_fails k _ d hd q h0 out := by
    have hd' : k.privateKey = some d := hd
    simp only [smallLib, hd', if_pos h0]

end LearnFramework.Ecc
