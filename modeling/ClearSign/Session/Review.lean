import ClearSign.Session.Basic
import ClearSign.Status

/-!
This module contains the review of what waits for approval: what the screen shows, and what happens
when the holder accepts or rejects.
-/

namespace ClearSign

structure Verdict where
  status : Status
  body : Bytes := []
  deriving DecidableEq, Repr

structure ItemText where
  title : Bytes
  value : Bytes
  pages : Nat
  deriving DecidableEq, Repr

namespace Session

def isReviewing (session : Session) : Bool :=
  session.prompt != .idle

def itemCount? (session : Session) : Option Nat :=
  match session.prompt with
  | .idle => none
  | .sign => some session.transaction.items.items.length
  | .address _ => some 1

def addressTitle : Bytes := ascii "Address"

def showAddress (key : Octets 32) (page : Nat) (title message : Bytes) :
    Except ScreenError Screen :=
  if title.length ≤ addressTitle.length then .error .unknown
  else
    match Page.write (hex key.bytes) message page with
    | .error fault => .error (.ofFault fault)
    | .ok (pages, message) =>
      .ok { pages, title := overwrite title (addressTitle ++ [0]), message }

def screen (session : Session) (index page : Nat) (title message : Bytes) :
    Except ScreenError Screen :=
  match session.prompt with
  | .idle => .error .noData
  | .sign =>
    (session.transaction.screen session.source index page title message).mapError .ofFault
  | .address key => if index > 0 then .error .noData else showAddress key page title message

def readPages (session : Session) (index : Nat) (title message : Bytes) (pages : List Nat) :
    Except ScreenError Bytes := do
  let texts ← pages.mapM fun page => do
    let screen ← session.screen index page title message
    return terminated screen.message
  return texts.flatten

def readItem (session : Session) (index : Nat) (title message : Bytes) :
    Except ScreenError ItemText := do
  let first ← session.screen index 0 title message
  let value ← session.readPages index title message (List.range first.pages)
  return { title := terminated first.title, value, pages := first.pages }

/--
The key and the digest that are signed if the holder accepts now.
-/
def toSign? (session : Session) : Option (KeyPath × Octets 32) :=
  match session.prompt, session.request with
  | .sign, some (path, _) => some (path, session.transaction.hash.digest)
  | _, _ => none

def approval (keys : Keystore) (session : Session) (room : Nat) : Verdict :=
  match session.toSign?, session.prompt with
  | some (path, digest), _ =>
    match keys.sign path digest with
    | none => { status := .signVerifyError }
    | some signature =>
      if signature.bytes.length ≤ room then { status := .success, body := signature.bytes }
      else { status := .outputBufferTooSmall }
  | none, .address key =>
    if key.bytes.length ≤ room then { status := .success, body := key.bytes }
    else { status := .outputBufferTooSmall }
  | none, _ => { status := .conditionsNotSatisfied }

def accept (keys : Keystore) (session : Session) (room : Nat) : Session × Verdict :=
  -- Whatever comes of it, nothing waits for approval afterwards.
  (session.reset, session.approval keys room)

def reject (session : Session) : Session × Verdict :=
  (session.reset, { status := .commandNotAllowed })

end Session

end ClearSign
