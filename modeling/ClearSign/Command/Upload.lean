import ClearSign.Command.Frame
import ClearSign.Memory.TieredBuffer
import ClearSign.Status

/-!
This module contains the upload of a request that is longer than a command: how one packet changes
the buffer, and how a request is cut into packets.
-/

namespace ClearSign

inductive Phase where
  | init
  | add
  | last
  deriving DecidableEq, Repr

namespace Phase

def toByte : Phase → UInt8
  | .init => 0
  | .add => 1
  | .last => 2

def ofByte (byte : UInt8) : Except Status Phase :=
  if byte = 0 then .ok .init
  else if byte = 1 then .ok .add
  else if byte = 2 then .ok .last
  else .error .invalidParameters

theorem ofByte_toByte (phase : Phase) : ofByte phase.toByte = .ok phase := by
  cases phase <;> rfl

end Phase

inductive Progress where
  | started (payload : Bytes)
  | ongoing
  | complete
  deriving DecidableEq, Repr

namespace Upload

/--
Take a packet. `initialized` tells whether an upload was started before. The buffer is left as it is
if the packet is refused.
-/
def receive (buffer : TieredBuffer) (initialized : Bool) (frame : Frame) :
    Except Status (Progress × TieredBuffer) := do
  let phase ← Phase.ofByte frame.p1
  match frame.payload with
  | .error _ => .error .wrongLength
  | .ok payload =>
    if phase = .init then .ok (.started payload, buffer.rewind)
    else if !initialized then .error .transactionNotInitialized
    else
      match buffer.append payload with
      | .error _ => .error .outputBufferTooSmall
      | .ok buffer => .ok (if phase = .last then .complete else .ongoing, buffer)

def packet (instruction : UInt8) (phase : Phase) (payload : Bytes) : Bytes :=
  [0, instruction, phase.toByte, 0, UInt8.ofNat payload.length] ++ payload

def pieces (size : Nat) (message : Bytes) : List Bytes :=
  -- There is a piece even if the message is empty.
  if size = 0 ∨ message.length ≤ size then [message]
  else message.take size :: pieces size (message.drop size)
termination_by message.length
decreasing_by simp only [List.length_drop]; omega

def following (instruction : UInt8) : List Bytes → List Bytes
  | [] => []
  | [piece] => [packet instruction .last piece]
  | piece :: rest => packet instruction .add piece :: following instruction rest

def packets (instruction : UInt8) (path message : Bytes) (size : Nat) : List Bytes :=
  packet instruction .init path :: following instruction (pieces size message)

end Upload

end ClearSign
