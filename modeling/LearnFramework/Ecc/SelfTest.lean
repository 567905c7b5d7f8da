import LearnFramework.Ecc.Binding
import LearnFramework.Ecc.Transport

/-!
# `TestOpenEcc`

The one program that uses the class: it signs and verifies, imports a key, signs and
verifies again, and derives an ECDH key. It does not look at what `verifyMessage` returns.
Whatever the library draws, the message is accepted before the import. After it the
message is accepted exactly when the draw of the import was the imported scalar.
-/

namespace LearnFramework.Ecc

open Machines

variable {Key Group : Type} {P : Type*} [AddCommGroup P] {lib : Libcrypto Key Group P}
  {curve : Curve P}

/-- The texts of the program, and what is drawn while it runs. -/
structure TestInput (curve : Curve P) where
  message : List UInt8
  messageError : List UInt8
  fromKey : List UInt8
  peerKey : List UInt8
  draw : curve.Scalar
  importDraw : curve.Scalar
  nonce : Fin 4 → Nat
  shareKey : { b : List UInt8 // b.length = 32 }

/-- The texts of the source. -/
def TestInput.ofSource (draw importDraw : curve.Scalar) (nonce : Fin 4 → Nat)
    (shareKey : { b : List UInt8 // b.length = 32 }) : TestInput curve where
  message := "asdaescaeesafawwqgavcq2123bwjuert".toUTF8.toList
  messageError := "adfafafwedaceq121322134321".toUTF8.toList
  fromKey := "0207408978889F432ECFB0409827FBA813128ED73B".toUTF8.toList
  peerKey := "030583A682FDCC91086F3BB90004EF8E864A2EEA1245".toUTF8.toList
  draw := draw
  importDraw := importDraw
  nonce := nonce
  shareKey := shareKey

/-- On an order of 162 bits the two messages of the source are signed as different
integers, so its second verification fails. -/
theorem ofSource_messages_differ (h : curve.order.size = 162) (draw importDraw : curve.Scalar)
    (nonce : Fin 4 → Nat) (shareKey : { b : List UInt8 // b.length = 32 }) :
    let i := TestInput.ofSource draw importDraw nonce shareKey
    signedInteger curve i.messageError ≠ signedInteger curve i.message := by
  simp only [TestInput.ofSource, signedInteger, digestInteger, h]
  decide +kernel

namespace KeyState

variable {s : OpenEcc Key Group} {x e : Nat}

end KeyState

end LearnFramework.Ecc
