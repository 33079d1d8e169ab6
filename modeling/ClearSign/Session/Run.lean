import ClearSign.Session.Command
import ClearSign.Session.Review

/-!
This module contains everything that can happen to a session, one event after the other.
-/

namespace ClearSign

inductive Event where
  | command (received : Nat) (before : Exchange)
  | setExpert (on : Bool)
  | reset
  | accept (room : Nat)
  | reject
  deriving DecidableEq, Repr

inductive Output where
  | nothing
  | exchange (after : Exchange)
  | verdict (verdict : Verdict)
  deriving DecidableEq, Repr

namespace Session

def step (device : Device) (keys : Keystore) (session : Session) : Event → Session × Output
  | .command received before =>
    let (session, after) := session.exchange device keys received before
    (session, .exchange after)
  | .setExpert on => (session.setExpert on, .nothing)
  | .reset => (session.reset, .nothing)
  -- The holder can accept or reject only while there is something to review.
  | .accept room =>
    if session.isReviewing then
      let (session, verdict) := session.accept keys room
      (session, .verdict verdict)
    else (session, .nothing)
  | .reject =>
    if session.isReviewing then
      let (session, verdict) := session.reject
      (session, .verdict verdict)
    else (session, .nothing)

def run (device : Device) (keys : Keystore) (session : Session) :
    List Event → Session × List Output
  | [] => (session, [])
  | event :: events =>
    let (session, output) := session.step device keys event
    let (session, outputs) := run device keys session events
    (session, output :: outputs)

end Session

end ClearSign
