import ClearSign.Binary.Reader

/-!
This module contains the compact form of a transfer: a kind and twelve fields, each behind its
length.
-/

namespace ClearSign

inductive Template.Kind where
  | transfer
  | transferCreate
  | crossChain
  deriving DecidableEq, Repr

namespace Template.Kind

def toByte : Template.Kind → UInt8
  | .transfer => 0
  | .transferCreate => 1
  | .crossChain => 2

def ofByte (byte : UInt8) : Except Fault Template.Kind :=
  if byte = 0 then .ok .transfer
  else if byte = 1 then .ok .transferCreate
  else if byte = 2 then .ok .crossChain
  else .error .unknownTransactionType

theorem ofByte_toByte (kind : Template.Kind) : ofByte kind.toByte = .ok kind := by
  cases kind <;> rfl

end Template.Kind

structure Template where
  kind : Template.Kind
  recipient : Bytes
  recipientChain : Bytes
  network : Bytes
  amount : Bytes
  moduleSpace : Bytes
  moduleName : Bytes
  gasPrice : Bytes
  gasLimit : Bytes
  creationTime : Bytes
  chain : Bytes
  nonce : Bytes
  ttl : Bytes
  deriving DecidableEq, Repr

namespace Template

def recipientLength : Nat := 64

def fields (t : Template) : List Bytes :=
  [t.recipient, t.recipientChain, t.network, t.amount, t.moduleSpace, t.moduleName, t.gasPrice,
   t.gasLimit, t.creationTime, t.chain, t.nonce, t.ttl]

open Binary Reader in
def read : Reader Template := do
  let kind ← match Template.Kind.ofByte (← byte) with
    | .ok kind => pure kind
    | .error fault => refuse fault
  let recipient ← field recipientLength
  if recipient.length ≠ recipientLength then refuse .valueOutOfRange
  let recipientChain ← field 2
  let network ← field 20
  let amount ← field 32
  let moduleSpace ← field 16
  let moduleName ← field 32
  let gasPrice ← field 10
  let gasLimit ← field 20
  let creationTime ← field 12
  let chain ← field 2
  let nonce ← field 32
  let ttl ← field 20
  return { kind, recipient, recipientChain, network, amount, moduleSpace, moduleName, gasPrice,
           gasLimit, creationTime, chain, nonce, ttl }

def ofBytes (input : Bytes) : Except Fault Template :=
  match read.run input with
  | .error stop => .error stop.fault
  | .ok (t, []) => .ok t
  | .ok (_, _ :: _) => .error .unparsedBytes

end Template

end ClearSign
