import ClearSign.Digest.RequestHash
import ClearSign.Review.Item
import ClearSign.Review.Schema
import ClearSign.Review.Writer

/-!
This module contains how the value of an item is written: fixed phrases around the exact source text
of what the item points to.
-/

namespace ClearSign

namespace Phrase

def unrestricted : String :=
  "UNSAFE TRANSACTION. This transaction's code was not recognized and does not limit " ++
    "capabilities for all signers. Signing this transaction may make arbitrary actions on the " ++
    "chain including loss of all funds."

def caution : String :=
  "'meta' field of transaction not recognized"

def tooLarge : String :=
  "Transaction too large for Ledger to display.  PROCEED WITH GREAT CAUTION.  " ++
    "Do you want to continue?"

def argsNotShown : String :=
  "args cannot be displayed on Ledger"

end Phrase

structure ReviewData where
  doc : Json.Document
  hash : RequestHash
  address : Bytes

namespace ReviewData

open Writer

def plain (r : ReviewData) (item : Item) : Writer Unit := do
  let value ← r.doc.text item.token
  if value.isEmpty then throw .emptyText
  put value

def arg (r : ReviewData) (capability n : Nat) : Except Fault Bytes :=
  match (r.doc.args? capability).bind fun args => r.doc.arrayElement? args n with
  | some value => r.doc.text value
  | none => .error .noData

def transfer (r : ReviewData) (item : Item) : Writer Unit := do
  let sender ← r.arg item.token 0
  let receiver ← r.arg item.token 1
  let amount ← r.arg item.token 2
  put amount
  put (ascii " from ")
  putQuoted sender
  put (ascii " to ")
  putQuoted receiver

def crossTransfer (r : ReviewData) (item : Item) : Writer Unit := do
  put (ascii "Cross-chain ")
  r.transfer item
  let chain ← r.arg item.token 3
  put (ascii " to chain ")
  putQuoted chain

def rotate (r : ReviewData) (item : Item) : Writer Unit := do
  let account ← r.arg item.token 0
  putQuoted account

def field (r : ReviewData) (object : Nat) (key : Bytes) : Except Fault Nat :=
  match r.doc.field? object key with
  | some value => .ok value
  | none => .error .noData

def gas (r : ReviewData) (item : Item) : Writer Unit := do
  let limit ← r.field item.token (ascii "gasLimit")
  let price ← r.field item.token (ascii "gasPrice")
  put (ascii "at most ")
  put (← r.doc.text limit)
  put (ascii " at price ")
  put (← r.doc.text price)

def numberedArgs (r : ReviewData) : (n : Nat) → (args : List Nat) → Writer Unit
  | _, [] => pure ()
  | n, arg :: args => do
    if n > 1 then put (ascii ", ")
    put (ascii "arg ")
    putNumber n
    put (ascii ": ")
    let text ← r.doc.text arg
    if r.doc.isString arg then putQuoted text else put text
    r.numberedArgs (n + 1) args

def unknownCapability (r : ReviewData) (item : Item) : Writer Unit := do
  let name ← r.field item.token (ascii "name")
  put (ascii "name: ")
  put (← r.doc.text name)
  put (ascii ", ")
  if item.shown then
    match (r.doc.args? item.token).elim [] r.doc.children with
    | [] => put (ascii "no args")
    | args => r.numberedArgs 1 args
  else put (ascii Phrase.argsNotShown)

def value (r : ReviewData) (item : Item) : Writer Unit :=
  match item.kind with
  | .signing => put (ascii "Transaction")
  | .requiring => put (ascii "Capabilities")
  | .payingGas => put (ascii " ")
  | .unrestricted => put (ascii Phrase.unrestricted)
  | .caution => put (ascii Phrase.caution)
  | .tooLarge => put (ascii Phrase.tooLarge)
  | .hash => put r.hash.text.bytes
  | .signForAddress => put r.address
  | .network | .signerKey | .unscopedSigner | .chain => r.plain item
  | .transfer _ => r.transfer item
  | .crossTransfer _ => r.crossTransfer item
  | .rotate => r.rotate item
  | .gas => r.gas item
  | .unknownCapability _ => r.unknownCapability item

def render (r : ReviewData) (item : Item) (out : Bytes) : Except Fault (Nat × Bytes) :=
  (r.value item).writeInto out

end ReviewData

end ClearSign
