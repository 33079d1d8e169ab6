import ClearSign.Bytes

/-!
This module contains the tokens of a JSON text: which kind of value or key stands where.
-/

namespace ClearSign.Json

inductive Token.Kind where
  | object
  | array
  | string
  | primitive
  deriving DecidableEq, Repr

/--
A value or key in a JSON text. A container spans from its opening byte to one past its closing byte,
a string spans what is between its quotes.
-/
structure Token where
  kind : Token.Kind
  first : UInt16
  last : UInt16
  deriving DecidableEq, Repr

namespace Token

/--
Stands for the end of a container whose closing byte has not been seen yet.
-/
def openMark : UInt16 := 0xFFFF

def closed (kind : Token.Kind) (start stop : Nat) : Token :=
  ⟨kind, UInt16.ofNat start, UInt16.ofNat stop⟩

def opened (kind : Token.Kind) (start : Nat) : Token :=
  ⟨kind, UInt16.ofNat start, openMark⟩

def isOpen (token : Token) : Bool :=
  token.last == openMark

def close (token : Token) (stop : Nat) : Token :=
  { token with last := UInt16.ofNat stop }

def start (token : Token) : Nat :=
  token.first.toNat

def stop (token : Token) : Nat :=
  token.last.toNat

def length (token : Token) : Nat :=
  token.stop - token.start

def isEmpty (token : Token) : Bool :=
  token.first == token.last

def isContainer (token : Token) : Bool :=
  match token.kind with
  | .object | .array => true
  | .string | .primitive => false

end Token

end ClearSign.Json
