import ClearSign.Fault

/-!
This module contains why a reader of binary data stops, and which fault is reported for it.
-/

namespace ClearSign.Binary

inductive Mismatch where
  | endOfInput
  | tooLarge
  | tag
  | digit
  | verify
  deriving DecidableEq, Repr

def Mismatch.fault : Mismatch → Fault
  | .endOfInput => .endOfBuffer
  | .tooLarge => .valueOutOfRange
  | .tag => .unknownTransactionType
  | .digit | .verify => .unexpected

def Mismatch.within (_outer : Mismatch) (inner : Fault) : Fault :=
  -- There is no memory for a trace, so only the fault that was there already is kept.
  inner

inductive Stop where
  | recoverable (fault : Fault)
  | final (fault : Fault)
  | incomplete
  deriving DecidableEq, Repr

def Stop.fault : Stop → Fault
  | .recoverable fault | .final fault => fault
  | .incomplete => .endOfBuffer

end ClearSign.Binary
