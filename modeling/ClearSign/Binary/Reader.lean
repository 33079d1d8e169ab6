import ClearSign.Binary.Stop
import ClearSign.Bytes

/-!
This module contains the readers of binary data. A reader takes bytes from the front of its input
and leaves the rest to the next one.
-/

namespace ClearSign.Binary

abbrev Reader (α : Type) := StateT Bytes (Except Stop) α

namespace Reader

def mismatch (kind : Mismatch) : Reader α :=
  throw (.recoverable kind.fault)

def refuse (fault : Fault) : Reader α :=
  throw (.final fault)

def byte : Reader UInt8 := do
  match ← get with
  | [] => mismatch .endOfInput
  | b :: rest =>
    set rest
    return b

def take (n : Nat) : Reader Bytes := do
  let input ← get
  if input.length < n then mismatch .endOfInput
  set (input.drop n)
  return input.take n

def word32 : Reader UInt32 := do
  let a ← byte
  let b ← byte
  let c ← byte
  let d ← byte
  return a.toUInt32 ||| b.toUInt32 <<< 8 ||| c.toUInt32 <<< 16 ||| d.toUInt32 <<< 24

def field (limit : Nat) : Reader Bytes := do
  let n ← byte
  if n.toNat > limit then mismatch .tooLarge
  take n.toNat

end Reader

end ClearSign.Binary
