import ClearSign.Device
import ClearSign.Json.Document

/-!
This module contains where a transaction keeps what a review shows. A field is looked up on its own
level only, so nothing inside of the payload or of an argument can stand in for it.
-/

namespace ClearSign

namespace Capability

def transfer : Bytes := ascii "coin.TRANSFER"
def crossTransfer : Bytes := ascii "coin.TRANSFER_XCHAIN"
def rotate : Bytes := ascii "coin.ROTATE"
def gas : Bytes := ascii "coin.GAS"

end Capability

def metaKeys : List Bytes :=
  [ascii "creationTime", ascii "ttl", ascii "gasLimit", ascii "chainId", ascii "gasPrice",
   ascii "sender"]

namespace Json.Document

def present? (doc : Document) (i : Nat) (key : Bytes) : Option Nat :=
  (doc.field? i key).filter fun value => !doc.isNull value

def firstSigner? (doc : Document) : Option Nat :=
  (doc.present? root (ascii "signers")).bind fun signers => doc.arrayElement? signers 0

def signerKey? (doc : Document) : Option Nat :=
  doc.firstSigner?.bind fun signer => doc.present? signer (ascii "pubKey")

def capabilityList? (doc : Document) : Option Nat :=
  (doc.firstSigner?.bind fun signer => doc.present? signer (ascii "clist")).filter doc.isArray

def capabilityName (doc : Document) (capability : Nat) : Except Fault (Option Bytes) :=
  match doc.present? capability (ascii "name") with
  | some name => if doc.isString name then some <$> doc.text name else .ok none
  | none => .ok none

def args? (doc : Document) (capability : Nat) : Option Nat :=
  (doc.present? capability (ascii "args")).filter doc.isArray

def argCount? (doc : Document) (capability : Nat) : Option Nat :=
  (doc.args? capability).bind doc.arrayCount?

def showsArgs (doc : Document) (capability : Nat) : Bool :=
  match doc.present? capability (ascii "args") with
  | none => true
  | some args =>
    match doc.token? args with
    | none => false
    | some token =>
      token.kind == .array && (doc.children args).length ≤ Limit.shownArgs &&
        token.length ≤ Limit.shownSpan

def accountKey (account : Bytes) : Bytes :=
  if (ascii "k:").isPrefixOf account then account.drop 2 else account

def mentionsKey (doc : Document) (key : Bytes) : List Nat → Except Fault Bool
  | [] => .ok false
  | arg :: args =>
    if doc.isString arg then do
      if accountKey (← doc.text arg) == key then return true
      doc.mentionsKey key args
    else doc.mentionsKey key args

def isTransferName (name : Option Bytes) : Bool :=
  name == some Capability.transfer || name == some Capability.crossTransfer

/--
Whether one of the capabilities is a transfer that names the account of `key`, or none of them is a
transfer at all. `found` tells that there was a transfer before.
-/
def scopes (doc : Document) (key : Bytes) (found : Bool) : List Nat → Except Fault Bool
  | [] => .ok !found
  | capability :: capabilities => do
    if isTransferName (← doc.capabilityName capability) then
      let args := (doc.args? capability).elim [] doc.children
      if ← doc.mentionsKey key args then return true
      doc.scopes key true capabilities
    else doc.scopes key found capabilities

def isScoped (doc : Document) (key : Nat) (list : Option Nat) : Except Fault Bool :=
  -- A missing list never binds the signer, a list without any transfer does.
  match list with
  | none => .ok false
  | some list => do
    let text ← doc.text key
    doc.scopes text false (doc.children list)

def hasMetaKeys (doc : Document) (object : Nat) : Bool :=
  doc.objectCount? object == some metaKeys.length &&
    metaKeys.zipIdx.all fun (key, n) =>
      -- There are so few keys that their numbers fit into a word of any device.
      match doc.objectKey? object (Fin.ofNat UInt32.size n) with
      | .ok (some name) => doc.isStringOf name key
      | .ok none | .error _ => false

def recognisedMeta? (doc : Document) : Option Nat :=
  (doc.present? root (ascii "meta")).filter doc.hasMetaKeys

end Json.Document

end ClearSign
