import ClearSign.Bytes

/-!
This module contains the frame in which a command arrives: a header of five bytes and a payload, at
the front of a buffer into which the reply is written later.
-/

namespace ClearSign

structure Frame where
  buffer : Bytes
  received : Nat
  header_le_received : 5 ≤ received
  received_le_length : received ≤ buffer.length

namespace Frame

def headerLength : Nat := 5

structure TooSmall where
  got : Nat
  expected : Nat
  deriving DecidableEq, Repr

structure WrongLength where
  length : Nat
  received : Nat
  deriving DecidableEq, Repr

def ofBuffer (buffer : Bytes) (received : Nat) : Except TooSmall Frame :=
  if h : 5 ≤ received then
    if h' : received ≤ buffer.length then .ok ⟨buffer, received, h, h'⟩
    else .error ⟨buffer.length, received⟩
  else .error ⟨received, headerLength⟩

theorem header_le_length (frame : Frame) : 5 ≤ frame.buffer.length :=
  Nat.le_trans frame.header_le_received frame.received_le_length

def header (frame : Frame) (i : Fin 5) : UInt8 :=
  frame.buffer.get ⟨i, Nat.lt_of_lt_of_le i.isLt frame.header_le_length⟩

def instructionClass (frame : Frame) : UInt8 := frame.header 0
def instruction (frame : Frame) : UInt8 := frame.header 1
def p1 (frame : Frame) : UInt8 := frame.header 2
def p2 (frame : Frame) : UInt8 := frame.header 3
def payloadLength (frame : Frame) : Nat := (frame.header 4).toNat

def payload (frame : Frame) : Except WrongLength Bytes :=
  if headerLength + frame.payloadLength > frame.received then
    .error ⟨frame.payloadLength, frame.received⟩
  else .ok ((frame.buffer.drop headerLength).take frame.payloadLength)

end Frame

end ClearSign
