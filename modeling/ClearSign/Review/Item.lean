import ClearSign.Bytes
import ClearSign.Fault

/-!
This module contains the items of a review: what each one shows and how it is titled.
-/

namespace ClearSign

inductive Item.Kind where
  | signing
  | network
  | requiring
  | signerKey
  | unscopedSigner
  | payingGas
  | transfer (number : Nat)
  | crossTransfer (number : Nat)
  | rotate
  | unknownCapability (number : Nat)
  | unrestricted
  | caution
  | chain
  | gas
  | tooLarge
  | hash
  | signForAddress
  deriving DecidableEq, Repr

namespace Item.Kind

def label : Item.Kind → String
  | .signing => "Signing"
  | .network => "On Network"
  | .requiring => "Requiring"
  | .signerKey => "Of Key"
  | .unscopedSigner => "Unscoped Signer"
  | .payingGas => "Paying Gas"
  | .transfer _ | .crossTransfer _ => "Transfer"
  | .rotate => "Rotate for account"
  | .unknownCapability _ => "Unknown Capability"
  | .unrestricted | .tooLarge => "WARNING"
  | .caution => "CAUTION"
  | .chain => "On Chain"
  | .gas => "Using Gas"
  | .hash => "Transaction hash"
  | .signForAddress => "Sign for Address"

def number? : Item.Kind → Option Nat
  | .transfer n | .crossTransfer n | .unknownCapability n => some n
  | _ => none

def title (kind : Item.Kind) : Bytes :=
  match kind.number? with
  | none => ascii kind.label
  | some n => ascii kind.label ++ ascii " " ++ decimal n

def writeTitle (kind : Item.Kind) (out : Bytes) : Except Fault (Nat × Bytes) :=
  if kind.title.length < out.length then
    .ok (kind.title.length, overwrite out (kind.title ++ [0]))
  else .error .textTooLong

end Item.Kind

/--
A line of a review. It points back to the token it shows, or to the first one if it shows none.
-/
structure Item where
  kind : Item.Kind
  token : Nat := 0
  -- Whether the arguments of an unknown capability are few and short enough to be shown.
  shown : Bool := true
  deriving DecidableEq, Repr

end ClearSign
