import ClearSign.Attempt
import ClearSign.Memory.Region

/-!
This module contains how text is appended to a buffer of fixed size. One byte is always kept free
for the terminator, and a piece that would need it is refused as a whole.
-/

namespace ClearSign

abbrev Writer := Attempt Region

namespace Writer

def put (piece : Bytes) : Writer Unit := do
  if piece.length < (← get).free.length then modify (·.write piece) else throw .textTooLong

theorem perform_put (piece : Bytes) (region : Region) :
    (put piece).perform region =
      if piece.length < region.free.length then (.ok (), region.write piece)
      else (.error .textTooLong, region) := by
  simp only [put, Attempt.perform_bind, Attempt.perform_get]
  split <;> simp

def putQuoted (text : Bytes) : Writer Unit := do
  put (ascii "\"")
  put text
  put (ascii "\"")

def putNumber (n : Nat) : Writer Unit :=
  put (decimal n)

def terminate (region : Region) : Except Fault (Nat × Bytes) :=
  match region.free with
  | [] => .error .textTooLong
  | _ :: free => .ok (region.written.length, region.written ++ 0 :: free)

def writeInto (writer : Writer Unit) (out : Bytes) : Except Fault (Nat × Bytes) :=
  match writer.perform (.ofMemory out) with
  | (.ok (), region) => terminate region
  | (.error fault, _) => .error fault

end Writer

end ClearSign
