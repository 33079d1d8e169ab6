import ClearSign.Binary.Reader
import ClearSign.Status

/-!
This module contains the derivation paths of signing keys, and the keeper of the keys.
-/

namespace ClearSign

/--
A derivation path. Its first two components are the same for all keys of the application, so only
the other three are kept.
-/
structure KeyPath where
  account : UInt32
  change : UInt32
  index : UInt32
  deriving DecidableEq, Repr

namespace KeyPath

def purpose : UInt32 := 0x8000002C

def coin : UInt32 := 0x80000272

def components (path : KeyPath) : List UInt32 :=
  [purpose, coin, path.account, path.change, path.index]

def ofComponents (purpose coin account change index : UInt32) : Except Status KeyPath :=
  if purpose = KeyPath.purpose ∧ coin = KeyPath.coin then .ok { account, change, index }
  else .error .dataInvalid

open Binary.Reader in
def read (payload : Bytes) : Except Status KeyPath :=
  -- Bytes behind the path are of no account.
  let words : Binary.Reader (Except Status KeyPath) := do
    let purpose ← word32
    let coin ← word32
    let account ← word32
    let change ← word32
    let index ← word32
    return ofComponents purpose coin account change index
  match words.run payload with
  | .ok (path, _) => path
  | .error _ => .error .wrongLength

end KeyPath

/--
The keeper of the keys, which derives and signs outside of this application and may fail.
-/
structure Keystore where
  publicKey : KeyPath → Option (Octets 32)
  sign : KeyPath → Octets 32 → Option (Octets 64)

end ClearSign
