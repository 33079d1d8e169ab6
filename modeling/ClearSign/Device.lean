import ClearSign.Bytes

/-!
This module contains the limits that hold on every device, and what differs from one device to
another.
-/

namespace ClearSign

namespace Limit

-- The longest JSON text that is read has one byte less than this.
def jsonLength : Nat := 65535

def tokens : Nat := 768

def depth : Nat := 24

def items : Nat := 25

def shownArgs : Nat := 5

def shownSpan : Nat := 256

def value : Nat := 512

def pageWidth : Nat := 40

def title : Nat := 24

end Limit

structure Device where
  ramSize : Nat
  flashSize : Nat
  expansionSize : Nat
  target : UInt32
  testBuild : Bool
  -- Whether a review ends with the address of the signer.
  showsSigner : Bool
  deriving DecidableEq, Repr

namespace Device

def standard : Device where
  ramSize := 8192
  flashSize := 15360
  expansionSize := 15360
  target := 0x33000004
  testBuild := false
  showsSigner := true

def small : Device where
  ramSize := 256
  flashSize := 7168
  expansionSize := 7168
  target := 0x31100004
  testBuild := true
  showsSigner := false

end Device

def applicationVersion : UInt16 × UInt16 × UInt16 := (1, 0, 0)

end ClearSign
