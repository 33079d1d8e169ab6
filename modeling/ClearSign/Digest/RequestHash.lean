import ClearSign.Digest.Base64
import ClearSign.Digest.Blake2b

/-!
This module contains the digest that is signed, together with the text that stands for it on the
screen.
-/

namespace ClearSign

structure RequestHash where
  digest : Octets 32
  text : Octets 44
  deriving DecidableEq

namespace RequestHash

def empty : RequestHash where
  digest := .zero 32
  text := .zero 44

def ofDigest (digest : Octets 32) : RequestHash where
  digest := digest
  text :=
    { bytes := base64 digest.bytes
      length_bytes := by simp [length_base64, digest.length_bytes] }

def ofMessage (message : Bytes) : RequestHash :=
  ofDigest (blake2b message)

end RequestHash

end ClearSign
