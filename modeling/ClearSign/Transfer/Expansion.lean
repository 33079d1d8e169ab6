import ClearSign.Attempt
import ClearSign.Digest.Blake2b
import ClearSign.Memory.TieredBuffer
import ClearSign.Transfer.Template

/-!
This module contains the transaction that a template stands for, and how it is written to memory
piece by piece while its digest is computed.
-/

namespace ClearSign

namespace Template

def contract (t : Template) : List Bytes :=
  -- It is the coin contract unless both parts of another name are given.
  if t.moduleSpace.isEmpty || t.moduleName.isEmpty then [ascii "coin"]
  else [t.moduleSpace, ascii ".", t.moduleName]

def function (t : Template) : Bytes :=
  match t.kind with
  | .transfer => ascii ".transfer"
  | .transferCreate => ascii ".transfer-create"
  | .crossChain => ascii ".transfer-crosschain"

def callData (t : Template) : List Bytes :=
  match t.kind with
  | .transfer => [ascii "\x7b\x7d"]
  | .transferCreate | .crossChain =>
    [ascii "\x7b\"ks\":\x7b\"pred\":\"keys-all\",\"keys\":[\"", t.recipient, ascii "\"]\x7d\x7d"]

def callCode (t : Template) (address : Bytes) : List Bytes :=
  t.contract ++
  [t.function, ascii " \\\"k:", address, ascii "\\\" \\\"k:", t.recipient, ascii "\\\""] ++
  (match t.kind with
    | .transfer => []
    | .transferCreate => [ascii " (read-keyset \\\"ks\\\")"]
    | .crossChain =>
      [ascii " (read-keyset \\\"ks\\\")", ascii " \\\"", t.recipientChain, ascii "\\\""]) ++
  [ascii " ", t.amount]

def grantArgs (t : Template) (address : Bytes) : List Bytes :=
  -- The first one stands behind a `k:` already.
  [address, ascii "\",\"k:", t.recipient, ascii "\",", t.amount] ++
  match t.kind with
  | .transfer | .transferCreate => []
  | .crossChain => [ascii ",\"", t.recipientChain, ascii "\""]

def grantName (t : Template) : List Bytes :=
  t.contract ++ [ascii ".TRANSFER"] ++
  match t.kind with
  | .transfer | .transferCreate => []
  | .crossChain => [ascii "_XCHAIN"]

def pieces (t : Template) (address : Bytes) : List Bytes :=
  [ascii "\x7b\"networkId\":\"", t.network,
   ascii "\",\"payload\":\x7b\"exec\":\x7b\"data\":"] ++
  t.callData ++
  [ascii ",\"code\":\"("] ++
  t.callCode address ++
  [ascii ")\"\x7d\x7d,\"signers\":[\x7b\"pubKey\":\"", address,
   ascii "\",\"clist\":[\x7b\"args\":[\"k:"] ++
  t.grantArgs address ++
  [ascii "],\"name\":\""] ++
  t.grantName ++
  [ascii "\"\x7d,\x7b\"args\":[],\"name\":\"coin.GAS\"\x7d]\x7d],\"meta\":\x7b\"creationTime\":",
   t.creationTime, ascii ",\"ttl\":", t.ttl, ascii ",\"gasLimit\":", t.gasLimit,
   ascii ",\"chainId\":\"", t.chain, ascii "\",\"gasPrice\":", t.gasPrice,
   ascii ",\"sender\":\"k:", address, ascii "\"\x7d,\"nonce\":\"", t.nonce, ascii "\"\x7d"]

def transaction (t : Template) (address : Bytes) : Bytes :=
  (t.pieces address).flatten

end Template

structure Expansion where
  out : TieredBuffer
  hash : Blake2b

namespace Expansion

def extend (piece : Bytes) : Attempt Expansion Unit := do
  let expansion ← get
  match expansion.out.append piece with
  | .ok out => set { out, hash := expansion.hash.update piece : Expansion }
  | .error _ => throw .textTooLong

def extendAll : List Bytes → Attempt Expansion Unit
  | [] => pure ()
  | piece :: pieces => do
    extend piece
    extendAll pieces

def write (t : Template) (address : Bytes) : Attempt Expansion Unit := do
  modify fun expansion => { expansion with out := expansion.out.rewind }
  extendAll (t.pieces address)

end Expansion

end ClearSign
