import ClearSign.Attempt
import ClearSign.Review.Item
import ClearSign.Review.Schema

/-!
This module contains the list of items of a review and how it is built from a transaction. The list
is bounded; building stops with a fault at the first item that finds no room.
-/

namespace ClearSign

structure ItemList where
  items : List Item := []
  transfers : Nat := 0
  unknowns : Nat := 0
  deriving DecidableEq, Repr

namespace ItemList

open Json (Document)

def full : Fault := .tooManyItems

def push (item : Item) : Attempt ItemList Unit := do
  if (← get).items.length < Limit.items then
    modify fun list => { list with items := list.items ++ [item] }
  else throw full

theorem perform_push (item : Item) (list : ItemList) :
    (push item).perform list =
      if list.items.length < Limit.items then
        (.ok (), { list with items := list.items ++ [item] })
      else (.error .tooManyItems, list) := by
  simp only [push, Attempt.perform_bind, Attempt.perform_get]
  split <;> simp [full]

def nextTransfer : Attempt ItemList Nat := do
  modify fun list => { list with transfers := list.transfers + 1 }
  return (← get).transfers

def nextUnknown : Attempt ItemList Nat := do
  modify fun list => { list with unknowns := list.unknowns + 1 }
  return (← get).unknowns

def pushUnknown (doc : Document) (capability : Nat) : Attempt ItemList Unit := do
  let n ← nextUnknown
  push { kind := .unknownCapability n, token := capability, shown := doc.showsArgs capability }

def pushPayingGas (doc : Document) : List Nat → Attempt ItemList (Option Nat)
  | [] => pure none
  | capability :: capabilities => do
    let name ← doc.capabilityName capability
    if name == some Capability.gas then
      -- One with arguments is not the kind that is known.
      if doc.argCount? capability == some 0 then
        push { kind := .payingGas, token := capability }
      else pushUnknown doc capability
      return some capability
    else pushPayingGas doc capabilities

def pushCapability (doc : Document) (capability : Nat) : Attempt ItemList Unit := do
  let name ← doc.capabilityName capability
  let count := doc.argCount? capability
  if name == some Capability.transfer && count == some 3 then
    push { kind := .transfer (← nextTransfer), token := capability }
  else if name == some Capability.crossTransfer && count == some 4 then
    push { kind := .crossTransfer (← nextTransfer), token := capability }
  else if name == some Capability.rotate && count == some 1 then
    push { kind := .rotate, token := capability }
  else pushUnknown doc capability

def pushCapabilities (doc : Document) (pushed : Option Nat) : List Nat → Attempt ItemList Unit
  | [] => pure ()
  | capability :: capabilities => do
    if pushed == some capability then pure () else pushCapability doc capability
    pushCapabilities doc pushed capabilities

def pushNetwork (doc : Document) : Attempt ItemList Unit :=
  match doc.present? Document.root (ascii "networkId") with
  | none => pure ()
  | some network => push { kind := .network, token := network }

def pushSigner (doc : Document) : Attempt ItemList Unit :=
  match doc.signerKey? with
  | none => pure ()
  | some key => do
    push { kind := .signerKey, token := key }
    let bound ← doc.isScoped key doc.capabilityList?
    if bound then pure () else push { kind := .unscopedSigner, token := key }

def pushGrants (doc : Document) : Attempt ItemList Unit :=
  match doc.capabilityList? with
  | none => push { kind := .unrestricted }
  | some list => do
    let pushed ← pushPayingGas doc (doc.children list)
    pushCapabilities doc pushed (doc.children list)

def pushChain (doc : Document) (info : Nat) : Attempt ItemList Unit :=
  match doc.present? info (ascii "chainId") with
  | none => pure ()
  | some chain => push { kind := .chain, token := chain }

def pushMeta (doc : Document) : Attempt ItemList Unit :=
  match doc.recognisedMeta? with
  | none => push { kind := .caution }
  | some info => do
    pushChain doc info
    push { kind := .gas, token := info }

def pushTooLarge : Attempt ItemList Unit := do
  if (← get).items.all Item.shown then pure () else push { kind := .tooLarge }

def pushAddress (device : Device) : Attempt ItemList Unit :=
  if device.showsSigner then push { kind := .signForAddress } else pure ()

def buildForDigest (device : Device) : Attempt ItemList Unit := do
  set ({} : ItemList)
  push { kind := .hash }
  pushAddress device

def build (device : Device) (doc : Document) : Attempt ItemList Unit := do
  set ({} : ItemList)
  push { kind := .signing }
  pushNetwork doc
  push { kind := .requiring }
  pushSigner doc
  pushGrants doc
  pushMeta doc
  pushTooLarge
  push { kind := .hash }
  pushAddress device

end ItemList

end ClearSign
