import ClearSign.KeyPath
import ClearSign.Transaction

/-!
This module contains the state of the application between commands. There is one request in flight
at most, and one thing at most that waits for the holder of the device.
-/

namespace ClearSign

inductive Prompt where
  | idle
  | sign
  | address (key : Octets 32)
  deriving DecidableEq

structure Session where
  expert : Bool
  buffer : TieredBuffer
  expansion : TieredBuffer
  transaction : Transaction
  -- The key and the kind of payload for which an upload was started.
  request : Option (KeyPath × PayloadKind)
  uploading : Bool
  prompt : Prompt
  deriving DecidableEq

namespace Session

def fresh (device : Device) : Session where
  expert := false
  buffer := .fresh device.ramSize device.flashSize
  -- expansions go to persistent memory at once
  expansion := .fresh 0 device.expansionSize
  transaction := {}
  request := none
  uploading := false
  prompt := .idle

def reset (session : Session) : Session :=
  { session with
    buffer := session.buffer.rewind
    expansion := session.expansion.rewind
    transaction := {}
    request := none
    uploading := false
    prompt := .idle }

def source (session : Session) : Bytes :=
  match session.transaction.kind with
  | .json => session.buffer.contents
  | .transfer => session.expansion.contents
  | .digest => []

def setExpert (session : Session) (on : Bool) : Session :=
  { session with expert := on }

end Session

end ClearSign
