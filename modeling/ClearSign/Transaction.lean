import ClearSign.Json.Scanner
import ClearSign.Review.ItemList
import ClearSign.Review.Page
import ClearSign.Review.Render
import ClearSign.Transfer.Expansion

/-!
This module contains the transaction of the request in flight: how it is read from each kind of
payload, and how its review is shown.
-/

namespace ClearSign

inductive PayloadKind where
  | json
  -- A digest is accepted in expert mode only.
  | digest
  | transfer
  deriving DecidableEq, Repr

structure Transaction where
  tokens : List Json.Token := []
  items : ItemList := {}
  hash : RequestHash := .empty
  address : Octets 64 := .zero 64
  kind : PayloadKind := .json
  deriving DecidableEq

structure Screen where
  pages : Nat
  title : Bytes
  message : Bytes
  deriving DecidableEq, Repr

namespace Transaction

def readSource (device : Device) (source : Bytes) : Attempt Transaction Unit := do
  let tokens ← Json.tokenize source
  modify fun tx => { tx with tokens }
  let build := ItemList.build device { source, tokens }
  build.within (·.items) fun items tx => { tx with items }

def readJson (device : Device) (source : Bytes) (key : Octets 32) : Attempt Transaction Unit := do
  set { address := key.toHex : Transaction }
  readSource device source
  modify fun tx => { tx with hash := .ofMessage source }

def readDigest (device : Device) (source : Bytes) (key : Octets 32) (expert : Bool) :
    Attempt Transaction Unit := do
  set ({} : Transaction)
  if !expert then throw .expertModeRequired
  match Octets.ofBytes? 32 source with
  | none => throw .endOfBuffer
  | some digest =>
    set { hash := .ofDigest digest, address := key.toHex, kind := .digest : Transaction }
    (ItemList.buildForDigest device).within (·.items) fun items tx => { tx with items }

/--
Read a compact transfer. It is expanded into the memory that is the second part of the state, and
the expansion is read as a transaction in full.
-/
def readTransfer (device : Device) (source : Bytes) (key : Octets 32) :
    Attempt (Transaction × TieredBuffer) Unit := do
  modify fun (_, out) => ({ address := key.toHex, kind := .transfer }, out)
  let template ← Template.ofBytes source
  let write := Expansion.write template key.toHex.bytes
  let (outcome, expansion) := write.perform { out := (← get).2, hash := .start }
  modify fun (tx, _) => (tx, expansion.out)
  let () ← outcome
  modify fun (tx, out) => ({ tx with hash := .ofDigest expansion.hash.digest }, out)
  (readSource device expansion.out.contents).within (·.1) fun tx state => (tx, state.2)

def document (tx : Transaction) (source : Bytes) : Json.Document :=
  -- The source of a transfer is its expansion.
  match tx.kind with
  | .digest => .empty
  | .json | .transfer => { source, tokens := tx.tokens }

def renderer (tx : Transaction) (source : Bytes) : ReviewData where
  doc := tx.document source
  hash := tx.hash
  address := tx.address.bytes

def renderItem (tx : Transaction) (source : Bytes) (item : Item) : Except Fault (Nat × Bytes) :=
  (tx.renderer source).render item (List.replicate Limit.value 0)

/--
Render every item once, so that nothing can fail when the review has begun.
-/
def validate (tx : Transaction) (source : Bytes) : Except Fault Unit :=
  tx.items.items.forM fun item => do
    let _ ← item.kind.writeTitle (List.replicate Limit.title 0)
    let _ ← tx.renderItem source item

def screen (tx : Transaction) (source : Bytes) (index page : Nat) (title message : Bytes) :
    Except Fault Screen :=
  match tx.items.items[index]? with
  | none => .error .itemOutOfRange
  | some item => do
    let (_, title) ← item.kind.writeTitle title
    let (length, value) ← tx.renderItem source item
    let (pages, message) ← Page.write (value.take length) message page
    return { pages, title, message }

end Transaction

end ClearSign
